import Mathlib.Data.Nat.Bitwise

/-!
# Reed-Solomon codes

The encoder of `lib/reed_solomon` and the part of the decoder that computes syndromes. Symbols are
numbers below `2 ^ mm`, and products are sums of logarithms looked up in tables. What the decoder
does with a word that has an error is left open: it is a field of the control structure.
-/

namespace AndroidKernel.ReedSolomon

/-- `struct rs_control`: the tables are arrays. `correct` is the decoder after the syndromes: it
gets them, the data and the parity, and returns its result and the data it leaves. -/
structure RsControl where
  mm : Nat
  nn : Nat
  alphaTo : List Nat
  indexOf : List Nat
  genpoly : List Nat
  nroots : Nat
  fcr : Nat
  prim : Nat
  gfpoly : Nat
  correct : List Nat → List UInt8 → List Nat → Int × List UInt8

/-- `-ERANGE`. -/
def erange : Int := -34

/-- The loop of `rs_modnn`, which subtracts `nn` and folds the high bits down. -/
def rsModnnLoop (mm nn : Nat) : Nat → Nat → Nat
  | 0, x => x
  | fuel + 1, x =>
    if nn ≤ x then rsModnnLoop mm nn fuel ((x - nn) >>> mm + ((x - nn) &&& nn)) else x

/-- `rs_modnn`: every turn lowers a positive `x`, so `x` turns are enough. -/
def RsControl.rsModnn (rs : RsControl) (x : Nat) : Nat :=
  rsModnnLoop rs.mm rs.nn x x

/-- `alpha_to[i]`. -/
def RsControl.alpha (rs : RsControl) (i : Nat) : Nat :=
  rs.alphaTo.getD i 0

/-- `index_of[x]`. -/
def RsControl.index (rs : RsControl) (x : Nat) : Nat :=
  rs.indexOf.getD x 0

/-- `genpoly[j]`, a logarithm. -/
def RsControl.gen (rs : RsControl) (j : Nat) : Nat :=
  rs.genpoly.getD j 0

/-- One symbol of `encode_rs8`: the feedback goes into the parity as it shifts. -/
def RsControl.encodeSymbol (rs : RsControl) (par : List Nat) (symbol : Nat) : List Nat :=
  let fb := rs.index (symbol ^^^ par.headD 0)
  if fb = rs.nn then par.tail ++ [0]
  else
    (List.range (rs.nroots - 1)).map (fun j =>
      par.getD (j + 1) 0 ^^^ rs.alpha (rs.rsModnn (fb + rs.gen (rs.nroots - (j + 1))))) ++
      [rs.alpha (rs.rsModnn (fb + rs.gen 0))]

/-- A byte of the data as a symbol. -/
def RsControl.symbol (rs : RsControl) (invmsk : Nat) (byte : UInt8) : Nat :=
  (byte.toNat ^^^ invmsk) &&& rs.nn

/-- `pad` of both functions, a C `int`. -/
def RsControl.pad (rs : RsControl) (len : Nat) : Int :=
  rs.nn - rs.nroots - len

/-- `encode_rs8`. -/
def RsControl.encodeRs8 (rs : RsControl) (data : List UInt8) (par : List Nat) (invmsk : Nat) :
    Int × List Nat :=
  if rs.pad data.length < 0 ∨ rs.nn ≤ rs.pad data.length then (erange, par)
  else (0, (data.map (rs.symbol invmsk)).foldl rs.encodeSymbol par)

/-- One symbol of the syndrome of the root `i`. -/
def RsControl.syndromeSymbol (rs : RsControl) (i syn symbol : Nat) : Nat :=
  if syn = 0 then symbol
  else symbol ^^^ rs.alpha (rs.rsModnn (rs.index syn + (rs.fcr + i) * rs.prim))

/-- The syndrome of the root `i` of the data followed by the parity. -/
def RsControl.syndrome (rs : RsControl) (data : List UInt8) (par : List Nat) (invmsk i : Nat) :
    Nat :=
  let first := rs.symbol invmsk (data.headD 0)
  let syn := (data.tail.map (rs.symbol invmsk)).foldl (rs.syndromeSymbol i) first
  (par.map (· &&& rs.nn)).foldl (rs.syndromeSymbol i) syn

/-- `decode_rs8` with no erasures known and no syndromes given. A length out of range is a
`BUG_ON`, which has no result. -/
def RsControl.decodeRs8 (rs : RsControl) (data : List UInt8) (par : List Nat) (invmsk : Nat) :
    Option (Int × List UInt8) :=
  if rs.pad data.length < 0 ∨ rs.nn ≤ rs.pad data.length then none
  else
    let syn := (List.range rs.nroots).map (rs.syndrome data par invmsk)
    if syn.all (· = 0) then some (0, data) else some (rs.correct syn data par)

/-- The step of the loop of `rs_init` that generates the field: a shift, reduced by `gfpoly`. -/
def mulAlpha (mm gfpoly sr : Nat) : Nat :=
  (if (sr <<< 1).testBit mm then sr <<< 1 ^^^ gfpoly else sr <<< 1) &&& (2 ^ mm - 1)

/-- The tables of `rs_init` after `count` turns of that loop: `alpha_to`, `index_of` and `sr`. -/
def fillTables (mm gfpoly : Nat) : Nat → List Nat × List Nat × Nat
  | 0 => (List.replicate (2 ^ mm) 0, (List.replicate (2 ^ mm) 0).set 0 (2 ^ mm - 1), 1)
  | i + 1 =>
    let (alphaTo, indexOf, sr) := fillTables mm gfpoly i
    (alphaTo.set i sr, indexOf.set sr i, mulAlpha mm gfpoly sr)

/-- One root of the generator polynomial: the polynomial so far, in polynomial form and with a
leading 1, times `x + alpha ^ root`. Its constant term is never 0. -/
def RsControl.mulRoot (rs : RsControl) (root : Nat) (gen : List Nat) : List Nat :=
  let times (c : Nat) := rs.alpha (rs.rsModnn (rs.index c + root))
  times (gen.getD 0 0) ::
    (List.range (gen.length - 1)).map (fun j =>
      if gen.getD (j + 1) 0 ≠ 0 then gen.getD j 0 ^^^ times (gen.getD (j + 1) 0)
      else gen.getD j 0) ++ [1]

/-- `rs_init` for a field polynomial. -/
def rsInit (symsize gfpoly fcr prim nroots : Nat)
    (correct : List Nat → List UInt8 → List Nat → Int × List UInt8) : Option RsControl :=
  let nn := 2 ^ symsize - 1
  let (alphaTo, indexOf, sr) := fillTables symsize gfpoly nn
  if sr ≠ alphaTo.getD 0 0 then none
  else
    let rs : RsControl := ⟨symsize, nn, alphaTo, indexOf, [], nroots, fcr, prim, gfpoly, correct⟩
    let gen := (List.range nroots).foldl (fun gen i => rs.mulRoot ((fcr + i) * prim) gen) [1]
    some { rs with genpoly := gen.map rs.index }

end AndroidKernel.ReedSolomon
