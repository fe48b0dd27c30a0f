import Mathlib.Algebra.Group.Nat.Defs
import Mathlib.Logic.Function.Basic
import Mathlib.Data.Nat.Init
import Mathlib.Algebra.Group.Int.Defs

/-!
# The socket filter

`sk_chk_filter` and `sk_run_filter` with what they read of a packet. Addresses are those of a
32-bit machine, and memory is a function of addresses, so a read beyond a packet has a value like
any other. What an instruction divides by, shifts by and reads is kept as a list of events.
-/

namespace AndroidKernel.Filter

/-! ## Instructions -/

/-- `struct sock_filter`. -/
structure SockFilter where
  code : UInt16
  jt : UInt8
  jf : UInt8
  k : UInt32

def bpfLd : UInt16 := 0x00
def bpfLdx : UInt16 := 0x01
def bpfSt : UInt16 := 0x02
def bpfStx : UInt16 := 0x03
def bpfAlu : UInt16 := 0x04
def bpfJmp : UInt16 := 0x05
def bpfRet : UInt16 := 0x06
def bpfMisc : UInt16 := 0x07

def bpfW : UInt16 := 0x00
def bpfH : UInt16 := 0x08
def bpfB : UInt16 := 0x10
def bpfImm : UInt16 := 0x00
def bpfAbs : UInt16 := 0x20
def bpfInd : UInt16 := 0x40
def bpfMem : UInt16 := 0x60
def bpfLen : UInt16 := 0x80
def bpfMsh : UInt16 := 0xa0

def bpfAdd : UInt16 := 0x00
def bpfSub : UInt16 := 0x10
def bpfMul : UInt16 := 0x20
def bpfDiv : UInt16 := 0x30
def bpfOr : UInt16 := 0x40
def bpfAnd : UInt16 := 0x50
def bpfLsh : UInt16 := 0x60
def bpfRsh : UInt16 := 0x70
def bpfNeg : UInt16 := 0x80
def bpfJa : UInt16 := 0x00
def bpfJeq : UInt16 := 0x10
def bpfJgt : UInt16 := 0x20
def bpfJge : UInt16 := 0x30
def bpfJset : UInt16 := 0x40
def bpfK : UInt16 := 0x00
def bpfX : UInt16 := 0x08
def bpfA : UInt16 := 0x10
def bpfTax : UInt16 := 0x00
def bpfTxa : UInt16 := 0x80

/-- `BPF_CLASS`. -/
def bpfClass (code : UInt16) : UInt16 := code &&& 0x07

/-- `BPF_MAXINSNS`. -/
def bpfMaxinsns : Nat := 4096

/-- `BPF_MEMWORDS`. -/
def bpfMemwords : Nat := 16

/-! ## The checker -/

/-- The instructions that are accepted as they are. -/
def plainCodes : List UInt16 :=
  [bpfAlu ||| bpfAdd ||| bpfK, bpfAlu ||| bpfAdd ||| bpfX, bpfAlu ||| bpfSub ||| bpfK,
    bpfAlu ||| bpfSub ||| bpfX, bpfAlu ||| bpfMul ||| bpfK, bpfAlu ||| bpfMul ||| bpfX,
    bpfAlu ||| bpfDiv ||| bpfX, bpfAlu ||| bpfAnd ||| bpfK, bpfAlu ||| bpfAnd ||| bpfX,
    bpfAlu ||| bpfOr ||| bpfK, bpfAlu ||| bpfOr ||| bpfX, bpfAlu ||| bpfLsh ||| bpfK,
    bpfAlu ||| bpfLsh ||| bpfX, bpfAlu ||| bpfRsh ||| bpfK, bpfAlu ||| bpfRsh ||| bpfX,
    bpfAlu ||| bpfNeg, bpfLd ||| bpfW ||| bpfAbs, bpfLd ||| bpfH ||| bpfAbs,
    bpfLd ||| bpfB ||| bpfAbs, bpfLd ||| bpfW ||| bpfLen, bpfLd ||| bpfW ||| bpfInd,
    bpfLd ||| bpfH ||| bpfInd, bpfLd ||| bpfB ||| bpfInd, bpfLd ||| bpfImm,
    bpfLdx ||| bpfW ||| bpfLen, bpfLdx ||| bpfB ||| bpfMsh, bpfLdx ||| bpfImm,
    bpfMisc ||| bpfTax, bpfMisc ||| bpfTxa, bpfRet ||| bpfK, bpfRet ||| bpfA]

/-- The instructions that use the scratch memory. -/
def memCodes : List UInt16 :=
  [bpfLd ||| bpfMem, bpfLdx ||| bpfMem, bpfSt, bpfStx]

/-- The conditional jumps. -/
def jumpCodes : List UInt16 :=
  [bpfJmp ||| bpfJeq ||| bpfK, bpfJmp ||| bpfJeq ||| bpfX, bpfJmp ||| bpfJge ||| bpfK,
    bpfJmp ||| bpfJge ||| bpfX, bpfJmp ||| bpfJgt ||| bpfK, bpfJmp ||| bpfJgt ||| bpfX,
    bpfJmp ||| bpfJset ||| bpfK, bpfJmp ||| bpfJset ||| bpfX]

/-- The body of the loop of `sk_chk_filter`. -/
def chkInsn (flen pc : Nat) (ftest : SockFilter) : Bool :=
  if ftest.code ∈ plainCodes then true
  else if ftest.code = bpfAlu ||| bpfDiv ||| bpfK then decide (ftest.k ≠ 0)
  else if ftest.code ∈ memCodes then decide (¬ bpfMemwords ≤ ftest.k.toNat)
  else if ftest.code = bpfJmp ||| bpfJa then decide (¬ flen - pc - 1 ≤ ftest.k.toNat)
  else if ftest.code ∈ jumpCodes then
    decide (¬ (flen ≤ pc + ftest.jt.toNat + 1 ∨ flen ≤ pc + ftest.jf.toNat + 1))
  else false

/-- The loop of `sk_chk_filter`, from `pc` on. -/
def chkInsns (flen : Nat) : Nat → List SockFilter → Bool
  | _, [] => true
  | pc, ftest :: rest => chkInsn flen pc ftest && chkInsns flen (pc + 1) rest

/-- `sk_chk_filter`: whether it returns 0. -/
def skChkFilter (filter : List SockFilter) : Bool :=
  if filter.length = 0 ∨ bpfMaxinsns < filter.length then false
  else if chkInsns filter.length 0 filter then
    match filter.getLast? with
    | some last => decide (bpfClass last.code = bpfRet)
    | none => false
  else false

/-! ## Packets -/

/-- A fragment of a packet in a page. -/
structure Frag where
  size : Nat
  byte : Nat → UInt8

/-- The fields of `struct sk_buff` that a filter uses; `dev` is the `ifindex` of the device. -/
structure SkbFields where
  head : Nat
  data : Nat
  tail : Nat
  networkHeader : Nat
  macHeader : Nat
  len : Nat
  dataLen : Nat
  protocol : UInt32
  pktType : UInt32
  dev : Option UInt32

/-- `struct sk_buff` with the fragments of its `skb_shared_info`. -/
inductive Skb
  | mk (fields : SkbFields) (frags : List Frag) (fragList : List Skb)

def Skb.fields : Skb → SkbFields
  | .mk fields _ _ => fields

/-- `skb_headlen`. -/
def SkbFields.headlen (f : SkbFields) : Nat :=
  f.len - f.dataLen

/-- A byte that is read: at an address, or in a fragment. -/
inductive Access
  | linear (addr : Nat)
  | page (frag : Frag) (offset : Nat)

/-- The bytes from an address on. -/
def linearAccesses (addr size : Nat) : List Access :=
  (List.range size).map fun i => .linear ((addr + i) % 2 ^ 32)

/-- The loop over the fragments in `skb_copy_bits`: the bytes read, and where it goes on. -/
def copyFrags : List Frag → Nat → Nat → Nat → List Access × Nat × Nat × Nat
  | [], start, offset, len => ([], start, offset, len)
  | frag :: frags, start, offset, len =>
    let stop := start + frag.size
    if offset < stop then
      let copy := min (stop - offset) len
      let reads := (List.range copy).map fun i => .page frag (offset - start + i)
      if len - copy = 0 then (reads, stop, offset + copy, 0)
      else
        let (more, result) := copyFrags frags stop (offset + copy) (len - copy)
        (reads ++ more, result)
    else copyFrags frags stop offset len

mutual

/-- `skb_copy_bits`: the bytes read, and whether it succeeds. -/
def skbCopyBits : Skb → Nat → Nat → List Access × Bool
  | .mk fields frags fragList, offset, len =>
    if fields.len < offset + len then ([], false)
    else
      let start := fields.headlen
      let copy := min (start - offset) len
      let reads := linearAccesses (fields.data + offset) copy
      if len - copy = 0 then (reads, true)
      else
        let (more, start, offset, len) := copyFrags frags start (offset + copy) (len - copy)
        if len = 0 then (reads ++ more, true)
        else
          let (rest, ok) := copyList fragList start offset len
          (reads ++ more ++ rest, ok)
termination_by structural skb => skb

/-- The loop over the list of fragments in `skb_copy_bits`. -/
def copyList : List Skb → Nat → Nat → Nat → List Access × Bool
  | [], _, _, len => ([], decide (len = 0))
  | skb :: rest, start, offset, len =>
    let stop := start + skb.fields.len
    if offset < stop then
      let copy := min (stop - offset) len
      let (reads, ok) := skbCopyBits skb (offset - start) copy
      if ok then
        if len - copy = 0 then (reads, true)
        else
          let (more, ok) := copyList rest stop (offset + copy) (len - copy)
          (reads ++ more, ok)
      else (reads, false)
    else copyList rest stop offset len
termination_by structural skbs => skbs

end

/-- `skb_header_pointer`, with the read of what it points to. -/
def skbHeaderPointer (skb : Skb) (offset size : Nat) : List Access × Bool :=
  if offset + size ≤ skb.fields.headlen then
    (linearAccesses (skb.fields.data + offset) size, true)
  else skbCopyBits skb offset size

def skfAdOff : Int := -0x1000
def skfNetOff : Int := -0x100000
def skfLlOff : Int := -0x200000

/-- An address computed from another one. -/
def addressAt (base : Nat) (offset : Int) : Nat :=
  ((base + offset) % 2 ^ 32).toNat

/-- The pointer of `__load_pointer`. -/
def loadAddress (skb : Skb) (k : Int) : Nat :=
  if skfNetOff ≤ k then addressAt skb.fields.networkHeader (k - skfNetOff)
  else if skfLlOff ≤ k then addressAt skb.fields.macHeader (k - skfLlOff)
  else 0

/-- `__load_pointer`, with the read of what it points to. -/
def loadPointerSlow (skb : Skb) (k : Int) (size : Nat) : List Access × Bool :=
  let ptr := loadAddress skb k
  if skb.fields.head ≤ ptr ∧ ptr < skb.fields.tail then (linearAccesses ptr size, true)
  else ([], false)

/-- `load_pointer`, with the read of what it points to. -/
def loadPointer (skb : Skb) (k : Int) (size : Nat) : List Access × Bool :=
  if 0 ≤ k then skbHeaderPointer skb k.toNat size
  else if skfAdOff ≤ k then ([], false)
  else loadPointerSlow skb k size

/-! ## Netlink attributes -/

/-- Memory outside of fragments. -/
abbrev Memory := Nat → UInt8

/-- A `__u16` of the machine. -/
def readU16 (memory : Memory) (addr : Nat) : Nat :=
  (memory addr).toNat + 256 * (memory ((addr + 1) % 2 ^ 32)).toNat

/-- `nla_type`. -/
def nlaType (memory : Memory) (nla : Nat) : Nat :=
  readU16 memory ((nla + 2) % 2 ^ 32) % 2 ^ 14

/-- `NLA_ALIGN`. -/
def nlaAlign (len : Nat) : Nat :=
  (len + 3) / 4 * 4

/-- `nla_find`: the bytes read, and the attribute if there is one. -/
def nlaFind (memory : Memory) (nla : Nat) (rem : Int) (attrtype : Int) :
    List Access × Option Nat :=
  if 4 ≤ rem then
    let nlaLen := readU16 memory nla
    if 4 ≤ nlaLen ∧ nlaLen ≤ rem then
      if (nlaType memory nla : Int) = attrtype then (linearAccesses nla 4, some nla)
      else
        let (more, found) := nlaFind memory ((nla + nlaAlign nlaLen) % 2 ^ 32)
          (rem - nlaAlign nlaLen) attrtype
        (linearAccesses nla 4 ++ more, found)
    else (linearAccesses nla 2, none)
  else ([], none)
termination_by rem.toNat
decreasing_by
  unfold nlaAlign
  omega

/-! ## The interpreter -/

inductive AluOp
  | add | sub | mul | div | and | or | lsh | rsh

inductive JmpOp
  | jgt | jge | jeq | jset

/-- The second operand: the field `k`, or the index register. -/
inductive Src
  | k | x

inductive Size
  | w | h | b

/-- The cases of the switch in `sk_run_filter`. -/
inductive Opcode
  | alu (op : AluOp) (src : Src)
  | neg
  | ja
  | jmp (op : JmpOp) (src : Src)
  | ldAbs (size : Size)
  | ldLen
  | ldxLen
  | ldInd (size : Size)
  | ldxMsh
  | ldImm
  | ldxImm
  | ldMem
  | ldxMem
  | tax
  | txa
  | retK
  | retA
  | st
  | stx

/-- The case labels of the switch in `sk_run_filter`. -/
def runCases : List (UInt16 × Opcode) :=
  [(bpfAlu ||| bpfAdd ||| bpfX, .alu .add .x), (bpfAlu ||| bpfAdd ||| bpfK, .alu .add .k),
    (bpfAlu ||| bpfSub ||| bpfX, .alu .sub .x), (bpfAlu ||| bpfSub ||| bpfK, .alu .sub .k),
    (bpfAlu ||| bpfMul ||| bpfX, .alu .mul .x), (bpfAlu ||| bpfMul ||| bpfK, .alu .mul .k),
    (bpfAlu ||| bpfDiv ||| bpfX, .alu .div .x), (bpfAlu ||| bpfDiv ||| bpfK, .alu .div .k),
    (bpfAlu ||| bpfAnd ||| bpfX, .alu .and .x), (bpfAlu ||| bpfAnd ||| bpfK, .alu .and .k),
    (bpfAlu ||| bpfOr ||| bpfX, .alu .or .x), (bpfAlu ||| bpfOr ||| bpfK, .alu .or .k),
    (bpfAlu ||| bpfLsh ||| bpfX, .alu .lsh .x), (bpfAlu ||| bpfLsh ||| bpfK, .alu .lsh .k),
    (bpfAlu ||| bpfRsh ||| bpfX, .alu .rsh .x), (bpfAlu ||| bpfRsh ||| bpfK, .alu .rsh .k),
    (bpfAlu ||| bpfNeg, .neg), (bpfJmp ||| bpfJa, .ja),
    (bpfJmp ||| bpfJgt ||| bpfK, .jmp .jgt .k), (bpfJmp ||| bpfJge ||| bpfK, .jmp .jge .k),
    (bpfJmp ||| bpfJeq ||| bpfK, .jmp .jeq .k), (bpfJmp ||| bpfJset ||| bpfK, .jmp .jset .k),
    (bpfJmp ||| bpfJgt ||| bpfX, .jmp .jgt .x), (bpfJmp ||| bpfJge ||| bpfX, .jmp .jge .x),
    (bpfJmp ||| bpfJeq ||| bpfX, .jmp .jeq .x), (bpfJmp ||| bpfJset ||| bpfX, .jmp .jset .x),
    (bpfLd ||| bpfW ||| bpfAbs, .ldAbs .w), (bpfLd ||| bpfH ||| bpfAbs, .ldAbs .h),
    (bpfLd ||| bpfB ||| bpfAbs, .ldAbs .b), (bpfLd ||| bpfW ||| bpfLen, .ldLen),
    (bpfLdx ||| bpfW ||| bpfLen, .ldxLen), (bpfLd ||| bpfW ||| bpfInd, .ldInd .w),
    (bpfLd ||| bpfH ||| bpfInd, .ldInd .h), (bpfLd ||| bpfB ||| bpfInd, .ldInd .b),
    (bpfLdx ||| bpfB ||| bpfMsh, .ldxMsh), (bpfLd ||| bpfImm, .ldImm), (bpfLdx ||| bpfImm, .ldxImm),
    (bpfLd ||| bpfMem, .ldMem), (bpfLdx ||| bpfMem, .ldxMem), (bpfMisc ||| bpfTax, .tax),
    (bpfMisc ||| bpfTxa, .txa), (bpfRet ||| bpfK, .retK), (bpfRet ||| bpfA, .retA), (bpfSt, .st),
    (bpfStx, .stx)]

/-- The case for a code. -/
def decode (code : UInt16) : Option Opcode :=
  (runCases.find? fun c => decide (c.1 = code)).map Prod.snd

/-- The variables of `sk_run_filter`. -/
structure State where
  pc : Int
  a : UInt32
  x : UInt32
  mem : Nat → UInt32

/-- What an instruction does that may go wrong. -/
inductive Event
  | divide (by' : UInt32)
  | shift (by' : UInt32)
  | scratch (index : Nat)
  | read (access : Access)

/-- How an instruction ends: with the next one, with a `BPF_RET`, with a `return 0` because the
packet does not have what is asked for, at the `WARN_ON`, or at a null pointer. -/
inductive Outcome
  | next (s : State)
  | returned (value : UInt32)
  | rejected
  | warned
  | oops

/-- A number as an `int`. -/
def signed (n : Nat) : Int :=
  Int.bmod n (2 ^ 32)

/-- The value of a byte. -/
def Access.byte (memory : Memory) : Access → UInt8
  | .linear addr => memory addr
  | .page frag offset => frag.byte offset

/-- The bytes as a number, the most significant first. -/
def bigEndian (memory : Memory) (bytes : List Access) : UInt32 :=
  bytes.foldl (fun n access => n * 256 + (access.byte memory).toUInt32) 0

def Size.bytes : Size → Nat
  | .w => 4
  | .h => 2
  | .b => 1

/-- The operand of an instruction. -/
def Src.value (src : Src) (fentry : SockFilter) (s : State) : UInt32 :=
  match src with
  | .k => fentry.k
  | .x => s.x

/-- The next instruction, `offset` further on. -/
def State.jump (s : State) (offset : Nat) : State :=
  { s with pc := signed ((s.pc + offset + 1) % 2 ^ 32).toNat }

def State.continue (s : State) : State :=
  { s with pc := s.pc + 1 }

/-- The arithmetic instructions, with the tests that come with a division. -/
def execAlu (op : AluOp) (src : Src) (fentry : SockFilter) (s : State) : List Event × Outcome :=
  let v := src.value fentry s
  match op with
  | .add => ([], .next { s with a := s.a + v }.continue)
  | .sub => ([], .next { s with a := s.a - v }.continue)
  | .mul => ([], .next { s with a := s.a * v }.continue)
  | .div =>
    match src with
    | .x =>
      if v = 0 then ([], .rejected)
      else ([.divide v], .next { s with a := s.a / v }.continue)
    | .k => ([.divide v], .next { s with a := s.a / v }.continue)
  | .and => ([], .next { s with a := s.a &&& v }.continue)
  | .or => ([], .next { s with a := s.a ||| v }.continue)
  | .lsh => ([.shift v], .next { s with a := s.a <<< v }.continue)
  | .rsh => ([.shift v], .next { s with a := s.a >>> v }.continue)

def JmpOp.holds (op : JmpOp) (a v : UInt32) : Bool :=
  match op with
  | .jgt => decide (v < a)
  | .jge => decide (v ≤ a)
  | .jeq => decide (a = v)
  | .jset => decide (a &&& v ≠ 0)

/-- Where a conditional jump goes. -/
def SockFilter.offset (fentry : SockFilter) (taken : Bool) : Nat :=
  if taken then fentry.jt.toNat else fentry.jf.toNat

variable (memory : Memory) (skb : Skb)

/-- The result of a search for an attribute as an offset. -/
def attrOffset (found : Option Nat) : UInt32 :=
  match found with
  | some nla => .ofNat (addressAt nla (-(skb.fields.data : Int)))
  | none => 0

/-- The end of `SKF_AD_NLATTR` and `SKF_AD_NLATTR_NEST`, with what was read before the search. -/
def execFound (s : State) (reads : List Access) (found : List Access × Option Nat) :
    List Event × Outcome :=
  ((reads ++ found.1).map .read, .next { s with a := attrOffset skb found.2 }.continue)

/-- A difference of two `unsigned int`. -/
def subU32 (a b : Nat) : Nat :=
  (a + 2 ^ 32 - b) % 2 ^ 32

/-- `SKF_AD_NLATTR`. -/
def execNlattr (s : State) : List Event × Outcome :=
  if skb.fields.dataLen ≠ 0 then ([], .rejected)
  else if subU32 skb.fields.len 4 < s.a.toNat then ([], .rejected)
  else
    execFound skb s [] (nlaFind memory (addressAt skb.fields.data s.a.toNat)
      (signed (subU32 skb.fields.len s.a.toNat)) (signed s.x.toNat))

/-- `nla_find_nested`. -/
def nlaFindNested (nla : Nat) (attrtype : Int) : List Access × Option Nat :=
  nlaFind memory (addressAt nla 4) (readU16 memory nla - 4) attrtype

/-- `SKF_AD_NLATTR_NEST`. -/
def execNlattrNest (s : State) : List Event × Outcome :=
  if skb.fields.dataLen ≠ 0 then ([], .rejected)
  else if subU32 skb.fields.len 4 < s.a.toNat then ([], .rejected)
  else if subU32 s.a.toNat skb.fields.len <
      readU16 memory (addressAt skb.fields.data s.a.toNat) then
    ((linearAccesses (addressAt skb.fields.data s.a.toNat) 2).map .read, .rejected)
  else
    execFound skb s (linearAccesses (addressAt skb.fields.data s.a.toNat) 2)
      (nlaFindNested memory (addressAt skb.fields.data s.a.toNat) (signed s.x.toNat))

/-- The switch over ancillary data. -/
def execAncillary (k : Int) (s : State) : List Event × Outcome :=
  if k - skfAdOff = 0 then ([], .next { s with a := skb.fields.protocol }.continue)
  else if k - skfAdOff = 4 then ([], .next { s with a := skb.fields.pktType }.continue)
  else if k - skfAdOff = 8 then
    match skb.fields.dev with
    | some ifindex => ([], .next { s with a := ifindex }.continue)
    | none => ([], .oops)
  else if k - skfAdOff = 12 then execNlattr memory skb s
  else if k - skfAdOff = 16 then execNlattrNest memory skb s
  else ([], .rejected)

/-- The labels `load_w`, `load_h` and `load_b`. -/
def execLoad (k : Int) (size : Size) (s : State) : List Event × Outcome :=
  match loadPointer skb k size.bytes with
  | (reads, true) => (reads.map .read, .next { s with a := bigEndian memory reads }.continue)
  | (reads, false) =>
    (reads.map .read ++ (execAncillary memory skb k s).1, (execAncillary memory skb k s).2)

/-- `BPF_LDX|BPF_B|BPF_MSH`. -/
def execMsh (k : Int) (s : State) : List Event × Outcome :=
  match loadPointer skb k 1 with
  | (reads, true) =>
    (reads.map .read, .next { s with x := (bigEndian memory reads &&& 0xf) <<< 2 }.continue)
  | (reads, false) => (reads.map .read, .rejected)

/-- The cases of the switch in `sk_run_filter`. -/
def execOp (fentry : SockFilter) (s : State) : Opcode → List Event × Outcome
  | .alu op src => execAlu op src fentry s
  | .neg => ([], .next { s with a := -s.a }.continue)
  | .ja => ([], .next (s.jump fentry.k.toNat))
  | .jmp op src =>
    ([], .next (s.jump (fentry.offset (op.holds s.a (src.value fentry s)))))
  | .ldAbs size => execLoad memory skb (signed fentry.k.toNat) size s
  | .ldLen => ([], .next { s with a := .ofNat skb.fields.len }.continue)
  | .ldxLen => ([], .next { s with x := .ofNat skb.fields.len }.continue)
  | .ldInd size => execLoad memory skb (signed (s.x + fentry.k).toNat) size s
  | .ldxMsh => execMsh memory skb (signed fentry.k.toNat) s
  | .ldImm => ([], .next { s with a := fentry.k }.continue)
  | .ldxImm => ([], .next { s with x := fentry.k }.continue)
  | .ldMem =>
    ([.scratch fentry.k.toNat], .next { s with a := s.mem fentry.k.toNat }.continue)
  | .ldxMem =>
    ([.scratch fentry.k.toNat], .next { s with x := s.mem fentry.k.toNat }.continue)
  | .tax => ([], .next { s with x := s.a }.continue)
  | .txa => ([], .next { s with a := s.x }.continue)
  | .retK => ([], .returned fentry.k)
  | .retA => ([], .returned s.a)
  | .st =>
    ([.scratch fentry.k.toNat],
      .next { s with mem := Function.update s.mem fentry.k.toNat s.a }.continue)
  | .stx =>
    ([.scratch fentry.k.toNat],
      .next { s with mem := Function.update s.mem fentry.k.toNat s.x }.continue)

/-- One turn of the loop of `sk_run_filter`; the default of the switch is a `WARN_ON`. -/
def exec (fentry : SockFilter) (s : State) : List Event × Outcome :=
  match decode fentry.code with
  | some op => execOp memory skb fentry s op
  | none => ([], .warned)

/-- How a filter ends: as one of its instructions, or at the end of the loop, or with a `pc` that
is before the program. -/
inductive Result
  | returned (value : UInt32)
  | rejected
  | warned
  | oops
  | fellOff
  | wild
  | running

/-- The loop of `sk_run_filter` for at most `fuel` instructions: the instructions executed, each
with the state it is executed in and its events, and how it ends. -/
def skRunFilter (filter : List SockFilter) :
    Nat → State → List (SockFilter × State × List Event) × Result
  | 0, _ => ([], .running)
  | fuel + 1, s =>
    if s.pc < filter.length then
      if s.pc < 0 then ([], .wild)
      else
        match filter[s.pc.toNat]? with
        | none => ([], .fellOff)
        | some fentry =>
          match exec memory skb fentry s with
          | (events, .next s') =>
            ((fentry, s, events) :: (skRunFilter filter fuel s').1,
              (skRunFilter filter fuel s').2)
          | (events, .returned value) => ([(fentry, s, events)], .returned value)
          | (events, .rejected) => ([(fentry, s, events)], .rejected)
          | (events, .warned) => ([(fentry, s, events)], .warned)
          | (events, .oops) => ([(fentry, s, events)], .oops)
    else ([], .fellOff)

/-- The state at the start; the scratch memory is not initialised. -/
def State.initial (mem : Nat → UInt32) : State :=
  ⟨0, 0, 0, mem⟩

end AndroidKernel.Filter
