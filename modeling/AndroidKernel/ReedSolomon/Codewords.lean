import AndroidKernel.Library.ShiftRegister
import AndroidKernel.ReedSolomon.Model

/-!
# Encoded words have no syndromes

A symbol times a power of the field's generator is that many turns of a shift register, which is
linear over exclusive or. So no field is needed: the encoder and the syndromes are followed by the
register alone, and the roots of the generator polynomial give that the syndromes of what the
encoder wrote are 0.
-/

namespace AndroidKernel.ReedSolomon

open Library

/-- The turn of the shift register of a control structure. -/
def RsControl.step (rs : RsControl) : Nat → Nat :=
  mulAlpha rs.mm rs.gfpoly

/-- The number of turns that multiply by the root `i`. -/
def RsControl.root (rs : RsControl) (i : Nat) : Nat :=
  (rs.fcr + i) * rs.prim

/-- The coefficients of the generator polynomial below the leading 1, highest first. -/
def RsControl.coefficients (rs : RsControl) : List Nat :=
  (List.range rs.nroots).map fun j => rs.alpha (rs.gen (rs.nroots - 1 - j))

/-- What `rs_init` sets up for a field polynomial that is primitive: the tables of powers and
logarithms, and a generator polynomial without zero coefficients that vanishes at its roots. -/
structure RsControl.Valid (rs : RsControl) : Prop where
  bits : 1 ≤ rs.mm ∧ rs.mm ≤ 8
  symbols : rs.nn = 2 ^ rs.mm - 1
  roots : 1 ≤ rs.nroots
  alphaZero : rs.alpha 0 = 1
  alphaSucc : ∀ i < rs.nn, rs.alpha ((i + 1) % rs.nn) = rs.step (rs.alpha i)
  indexZero : rs.index 0 = rs.nn
  index : ∀ x < rs.nn + 1, x ≠ 0 → rs.index x < rs.nn ∧ rs.alpha (rs.index x) = x
  gen : ∀ j < rs.nroots, rs.gen j < rs.nn
  vanishes : ∀ i < rs.nroots, horner rs.step (rs.root i) (1 :: rs.coefficients) = 0

variable {rs : RsControl} {mm gfpoly x y c e i u syn : Nat} {par : List Nat} {data : List UInt8}

/-! ## The shift register -/

theorem mulAlpha_linear (mm gfpoly : Nat) : Linear (mulAlpha mm gfpoly) := by
  intro x y
  unfold mulAlpha
  rw [← Nat.and_xor_distrib_right, Nat.shiftLeft_xor_distrib, Nat.testBit_xor]
  congr 1
  -- the polynomial is added twice, once or not at all
  cases hx : (x <<< 1).testBit mm <;> cases hy : (y <<< 1).testBit mm
  · rfl
  · simp [Nat.xor_assoc]
  · simp [Nat.xor_comm, Nat.xor_left_comm]
  · have hcancel : x <<< 1 ^^^ gfpoly ^^^ (y <<< 1 ^^^ gfpoly) = x <<< 1 ^^^ y <<< 1 := by
      rw [Nat.xor_assoc, Nat.xor_left_comm gfpoly, Nat.xor_self, Nat.xor_zero]
    simp [hcancel]

theorem mulAlpha_lt (mm gfpoly x : Nat) : mulAlpha mm gfpoly x < 2 ^ mm := by
  unfold mulAlpha
  rw [Nat.and_two_pow_sub_one_eq_mod]
  exact Nat.mod_lt _ (Nat.two_pow_pos mm)

theorem RsControl.step_linear (rs : RsControl) : Linear rs.step :=
  mulAlpha_linear rs.mm rs.gfpoly

/-- Turns of the register keep words. -/
theorem RsControl.iterate_lt (rs : RsControl) (n : Nat) (hx : x < 2 ^ rs.mm) :
    rs.step^[n] x < 2 ^ rs.mm := by
  cases n with
  | zero => exact hx
  | succ n =>
    rw [Function.iterate_succ_apply']
    exact mulAlpha_lt _ _ _

/-- The loop of `rs_modnn` computes a remainder. -/
theorem rsModnnLoop_eq (mm : Nat) (hmm : 1 ≤ mm) (fuel : Nat) (hx : x ≤ fuel) :
    rsModnnLoop mm (2 ^ mm - 1) fuel x = x % (2 ^ mm - 1) := by
  have hpow : 2 ≤ 2 ^ mm := by
    calc 2 = 2 ^ 1 := rfl
      _ ≤ 2 ^ mm := Nat.pow_le_pow_right (by decide) hmm
  induction fuel generalizing x with
  | zero =>
    obtain rfl : x = 0 := by omega
    simp [rsModnnLoop]
  | succ fuel ih =>
    unfold rsModnnLoop
    split_ifs with hle
    · rw [Nat.shiftRight_eq_div_pow, Nat.and_two_pow_sub_one_eq_mod]
      have hsplit := Nat.div_add_mod (x - (2 ^ mm - 1)) (2 ^ mm)
      have hdiv : (x - (2 ^ mm - 1)) / 2 ^ mm ≤
          2 ^ mm * ((x - (2 ^ mm - 1)) / 2 ^ mm) := Nat.le_mul_of_pos_left _ (by omega)
      rw [ih (by omega)]
      -- the quotient is subtracted `2 ^ mm - 1` times
      have hx' : x = (x - (2 ^ mm - 1)) / 2 ^ mm + (x - (2 ^ mm - 1)) % 2 ^ mm +
          (2 ^ mm - 1) * ((x - (2 ^ mm - 1)) / 2 ^ mm + 1) := by
        rw [Nat.mul_add_one, Nat.sub_one_mul]
        omega
      conv_rhs => rw [hx', Nat.add_mul_mod_self_left]
    · exact (Nat.mod_eq_of_lt (by omega)).symm

namespace RsControl.Valid

theorem pow_eq (h : rs.Valid) : rs.nn + 1 = 2 ^ rs.mm := by
  have hpos := Nat.two_pow_pos rs.mm
  rw [h.symbols]
  omega

theorem nn_pos (h : rs.Valid) : 0 < rs.nn := by
  have hpow : 2 ^ 1 ≤ 2 ^ rs.mm := Nat.pow_le_pow_right (by decide) h.bits.1
  rw [h.symbols]
  omega

theorem rsModnn_eq (h : rs.Valid) (x : Nat) : rs.rsModnn x = x % rs.nn := by
  unfold RsControl.rsModnn
  rw [h.symbols]
  exact rsModnnLoop_eq rs.mm h.bits.1 x le_rfl

/-- The table holds the powers of the generator, whose order divides `nn`. -/
theorem alpha_mod (h : rs.Valid) (i : Nat) : rs.alpha (i % rs.nn) = rs.step^[i] 1 := by
  induction i with
  | zero =>
    rw [Nat.zero_mod]
    exact h.alphaZero
  | succ i ih =>
    rw [Function.iterate_succ_apply', ← ih, ← h.alphaSucc _ (Nat.mod_lt _ h.nn_pos),
      Nat.mod_add_mod]

/-- A symbol that is not 0 is a power of the generator. -/
theorem eq_iterate (h : rs.Valid) (hx : x < 2 ^ rs.mm) (hne : x ≠ 0) :
    x = rs.step^[rs.index x] 1 := by
  obtain ⟨hlt, heq⟩ := h.index x (by rw [h.pow_eq]; exact hx) hne
  rw [← h.alpha_mod, Nat.mod_eq_of_lt hlt, heq]

/-- A product by logarithms is so many turns of the register. -/
theorem alpha_index_add (h : rs.Valid) (hx : x < 2 ^ rs.mm) (hne : x ≠ 0) (e : Nat) :
    rs.alpha (rs.rsModnn (rs.index x + e)) = rs.step^[e] x := by
  conv_rhs => rw [h.eq_iterate hx hne, ← Function.iterate_add_apply]
  rw [h.rsModnn_eq, h.alpha_mod, Nat.add_comm]

/-- A symbol of a syndrome: a multiple of the sum so far and the new symbol. -/
theorem syndromeSymbol_eq (h : rs.Valid) (hsyn : syn < 2 ^ rs.mm) (i u : Nat) :
    rs.syndromeSymbol i syn u = rs.step^[rs.root i] syn ^^^ u := by
  unfold RsControl.syndromeSymbol
  split_ifs with hzero
  · rw [hzero, rs.step_linear.iterate_zero, Nat.zero_xor]
  · rw [h.alpha_index_add hsyn hzero, Nat.xor_comm]
    rfl

theorem foldl_syndromeSymbol (h : rs.Valid) (i : Nat) {symbols : List Nat}
    (hsymbols : ∀ u ∈ symbols, u < 2 ^ rs.mm) (hsyn : syn < 2 ^ rs.mm) :
    symbols.foldl (rs.syndromeSymbol i) syn = hornerFrom rs.step (rs.root i) syn symbols := by
  induction symbols generalizing syn with
  | nil => rfl
  | cons u symbols ih =>
    rw [List.foldl_cons, h.syndromeSymbol_eq hsyn]
    refine ih (fun v hv => hsymbols v (List.mem_cons_of_mem _ hv)) ?_
    exact Nat.xor_lt_two_pow (rs.iterate_lt _ hsyn) (hsymbols u List.mem_cons_self)

/-- One symbol of the encoder: the parity shifts and the feedback is multiplied in. -/
theorem encodeSymbol_eq (h : rs.Valid) (hpar : par.length = rs.nroots)
    (hc : u ^^^ par.headD 0 < 2 ^ rs.mm) :
    rs.encodeSymbol par u = List.zipWith (· ^^^ ·) (par.tail ++ [0])
      ((List.range rs.nroots).map fun j =>
        rs.step^[rs.gen (rs.nroots - 1 - j)] (u ^^^ par.headD 0)) := by
  have hroots := h.roots
  unfold RsControl.encodeSymbol
  by_cases hzero : u ^^^ par.headD 0 = 0
  · rw [hzero, if_pos h.indexZero]
    apply List.ext_getElem
    · simp [hpar]
      omega
    · intro j hj hj'
      simp [rs.step_linear.iterate_zero]
  have hindex := (h.index _ (by rw [h.pow_eq]; exact hc) hzero).1
  obtain ⟨n, hn⟩ : ∃ n, rs.nroots = n + 1 := ⟨rs.nroots - 1, by omega⟩
  have htail : par.tail.length = n := by rw [List.length_tail, hpar, hn, Nat.add_sub_cancel]
  rw [if_neg (by omega), hn, Nat.add_sub_cancel, List.range_succ, List.map_append,
    List.zipWith_append (by rw [htail, List.length_map, List.length_range])]
  simp only [h.alpha_index_add hc hzero]
  congr 1
  · apply List.ext_getElem
    · simp [htail]
    · intro j hj hj'
      have hjn : j < n := by simpa using hj
      have hget : par.getD (j + 1) 0 = par.tail[j] := by
        rw [List.getElem_tail, List.getD_eq_getElem]
      simp only [List.getElem_map, List.getElem_range, List.getElem_zipWith]
      rw [hget, show n + 1 - (j + 1) = n - j by omega]
  · simp

/-- The generator polynomial without its leading term is the power that the term stands for. -/
theorem horner_coefficients (h : rs.Valid) (hi : i < rs.nroots) (hc : c < 2 ^ rs.mm) :
    horner rs.step (rs.root i) ((List.range rs.nroots).map fun j =>
        rs.step^[rs.gen (rs.nroots - 1 - j)] c) =
      rs.step^[rs.root i * rs.nroots] c := by
  have hone : horner rs.step (rs.root i) rs.coefficients =
      rs.step^[rs.root i * rs.nroots] 1 := by
    have hsum := h.vanishes i hi
    rw [rs.step_linear.horner_cons, RsControl.coefficients, List.length_map, List.length_range,
      ← RsControl.coefficients] at hsum
    exact (Nat.xor_eq_zero_iff.mp hsum).symm
  by_cases hzero : c = 0
  · subst hzero
    simp only [rs.step_linear.iterate_zero]
    rw [List.map_const', rs.step_linear.horner_replicate_zero]
  -- the coefficients times a power of the generator
  have hpow := h.eq_iterate hc hzero
  have hmap : ((List.range rs.nroots).map fun j => rs.step^[rs.gen (rs.nroots - 1 - j)] c) =
      rs.coefficients.map rs.step^[rs.index c] := by
    rw [RsControl.coefficients, List.map_map]
    refine List.map_congr_left fun j hj => ?_
    have hj := List.mem_range.mp hj
    have hgen := h.gen (rs.nroots - 1 - j) (by omega)
    show _ = rs.step^[rs.index c] (rs.alpha _)
    rw [← Nat.mod_eq_of_lt hgen, h.alpha_mod, Nat.mod_eq_of_lt hgen, ← Function.iterate_add_apply,
      Nat.add_comm, Function.iterate_add_apply, ← hpow]
  rw [hmap, rs.step_linear.horner_map, hone, ← Function.iterate_add_apply, Nat.add_comm,
    Function.iterate_add_apply, ← hpow]

/-- One symbol adds its multiple to the parity, which moves up by one. -/
theorem horner_encodeSymbol (h : rs.Valid) (hi : i < rs.nroots) (hpar : par.length = rs.nroots)
    (hwords : ∀ p ∈ par, p < 2 ^ rs.mm) (hu : u < 2 ^ rs.mm) :
    horner rs.step (rs.root i) (rs.encodeSymbol par u) =
      rs.step^[rs.root i] (horner rs.step (rs.root i) par) ^^^
        rs.step^[rs.root i * rs.nroots] u := by
  have hlin := rs.step_linear
  have hroots := h.roots
  cases par with
  | nil => simp at hpar; omega
  | cons p tail =>
    have htail : tail.length + 1 = rs.nroots := hpar
    have hc : u ^^^ p < 2 ^ rs.mm := Nat.xor_lt_two_pow hu (hwords p List.mem_cons_self)
    rw [h.encodeSymbol_eq hpar hc, hlin.horner_xor (by simp [htail]), List.tail_cons,
      List.headD_cons, h.horner_coefficients hi hc, horner_concat, Nat.xor_zero, hlin.horner_cons,
      hlin.iterate (rs.root i), ← Function.iterate_add_apply, ← htail, Nat.mul_add_one,
      Nat.add_comm (rs.root i * tail.length), hlin.iterate _ u p]
    simp only [Nat.xor_assoc, Nat.xor_comm]

end RsControl.Valid

/-! ## Encoding and the syndromes -/

/-- The parity of data whose sums at the roots are known: at each root it is the sum moved up by
the number of parity symbols. -/
structure IsParity (rs : RsControl) (par : List Nat) (sum : Nat → Nat) : Prop where
  length : par.length = rs.nroots
  words : ∀ p ∈ par, p < 2 ^ rs.mm
  sums : ∀ i < rs.nroots,
    horner rs.step (rs.root i) par = rs.step^[rs.root i * rs.nroots] (sum i)

variable {sum : Nat → Nat} {symbols : List Nat} {invmsk : Nat}

/-- The empty parity belongs to no data. -/
theorem RsControl.Valid.isParity_zero (_h : rs.Valid) :
    IsParity rs (List.replicate rs.nroots 0) fun _ => 0 where
  length := List.length_replicate
  words := fun p hp => by
    rw [List.eq_of_mem_replicate hp]
    exact Nat.two_pow_pos _
  sums := fun i _ => by
    rw [rs.step_linear.horner_replicate_zero, rs.step_linear.iterate_zero]

theorem IsParity.encodeSymbol (hpar : IsParity rs par sum) (h : rs.Valid) (hu : u < 2 ^ rs.mm) :
    IsParity rs (rs.encodeSymbol par u) fun i => rs.step^[rs.root i] (sum i) ^^^ u := by
  have hroots := h.roots
  have hhead : par.headD 0 < 2 ^ rs.mm := by
    cases par with
    | nil => exact Nat.two_pow_pos _
    | cons p tail => exact hpar.words p List.mem_cons_self
  have heq := h.encodeSymbol_eq hpar.length (Nat.xor_lt_two_pow hu hhead)
  refine ⟨?_, fun p hp => ?_, fun i hi => ?_⟩
  · rw [heq]
    simp [hpar.length]
    omega
  · rw [heq] at hp
    obtain ⟨j, hj, rfl⟩ := List.getElem_of_mem hp
    rw [List.getElem_zipWith]
    refine Nat.xor_lt_two_pow ?_ ?_
    · have hmem := List.getElem_mem (l := par.tail ++ [0]) (by simp at hj ⊢; omega : j < _)
      rcases List.mem_append.mp hmem with htail | hzero
      · exact hpar.words _ (List.mem_of_mem_tail htail)
      · rw [List.mem_singleton.mp hzero]
        exact Nat.two_pow_pos _
    · rw [List.getElem_map]
      exact rs.iterate_lt _ (Nat.xor_lt_two_pow hu hhead)
  · rw [h.horner_encodeSymbol hi hpar.length hpar.words hu, hpar.sums i hi,
      rs.step_linear.iterate _ _ u, ← Function.iterate_add_apply, ← Function.iterate_add_apply,
      Nat.add_comm]

theorem IsParity.foldl_encodeSymbol (hpar : IsParity rs par sum) (h : rs.Valid)
    (hsymbols : ∀ u ∈ symbols, u < 2 ^ rs.mm) :
    IsParity rs (symbols.foldl rs.encodeSymbol par) fun i =>
      hornerFrom rs.step (rs.root i) (sum i) symbols := by
  induction symbols generalizing par sum with
  | nil => exact hpar
  | cons u symbols ih =>
    exact ih (hpar.encodeSymbol h (hsymbols u List.mem_cons_self)) fun v hv =>
      hsymbols v (List.mem_cons_of_mem _ hv)

theorem RsControl.Valid.symbol_lt (h : rs.Valid) (invmsk : Nat) (byte : UInt8) :
    rs.symbol invmsk byte < 2 ^ rs.mm := by
  unfold RsControl.symbol
  rw [h.symbols, Nat.and_two_pow_sub_one_eq_mod]
  exact Nat.mod_lt _ (Nat.two_pow_pos _)

theorem RsControl.Valid.symbols_lt (h : rs.Valid) (invmsk : Nat) (data : List UInt8) :
    ∀ u ∈ data.map (rs.symbol invmsk), u < 2 ^ rs.mm := by
  intro u hu
  obtain ⟨byte, -, rfl⟩ := List.mem_map.mp hu
  exact h.symbol_lt invmsk byte

theorem hornerFrom_lt (k : Nat) (hsymbols : ∀ u ∈ symbols, u < 2 ^ rs.mm)
    (hsyn : syn < 2 ^ rs.mm) : hornerFrom rs.step k syn symbols < 2 ^ rs.mm := by
  induction symbols generalizing syn with
  | nil => exact hsyn
  | cons u symbols ih =>
    exact ih (fun v hv => hsymbols v (List.mem_cons_of_mem _ hv))
      (Nat.xor_lt_two_pow (rs.iterate_lt _ hsyn) (hsymbols u List.mem_cons_self))

/-- The syndromes of data with its parity are 0. -/
theorem IsParity.syndrome_eq_zero (h : rs.Valid) (hdata : data ≠ [])
    (hpar : IsParity rs par fun i =>
      horner rs.step (rs.root i) (data.map (rs.symbol invmsk))) (hi : i < rs.nroots) :
    rs.syndrome data par invmsk i = 0 := by
  have hlin := rs.step_linear
  have hmask : par.map (· &&& rs.nn) = par := by
    refine (List.map_congr_left fun p hp => ?_).trans (List.map_id par)
    rw [h.symbols, Nat.and_two_pow_sub_one_eq_mod, Nat.mod_eq_of_lt (hpar.words p hp)]
    rfl
  cases data with
  | nil => exact absurd rfl hdata
  | cons first rest =>
    have hfirst := h.symbol_lt invmsk first
    have hsum : hornerFrom rs.step (rs.root i) (rs.symbol invmsk first)
        (rest.map (rs.symbol invmsk)) =
        horner rs.step (rs.root i) ((first :: rest).map (rs.symbol invmsk)) := by
      show _ = hornerFrom rs.step (rs.root i) (rs.step^[rs.root i] 0 ^^^ _) _
      rw [hlin.iterate_zero, Nat.zero_xor]
    unfold RsControl.syndrome
    simp only [List.headD_cons, List.tail_cons]
    have hword := hornerFrom_lt (rs.root i) (h.symbols_lt invmsk rest) hfirst
    rw [h.foldl_syndromeSymbol i (h.symbols_lt invmsk rest) hfirst, hmask,
      h.foldl_syndromeSymbol i hpar.words hword, hsum, hlin.hornerFrom_eq, hpar.length,
      hpar.sums i hi, Nat.xor_self]

/-- A length that the code has room for. -/
def RsControl.Admits (rs : RsControl) (len : Nat) : Prop :=
  1 ≤ len ∧ len + rs.nroots ≤ rs.nn

theorem RsControl.Valid.pad_ok (h : rs.Valid) {len : Nat} (hlen : rs.Admits len) :
    ¬(rs.pad len < 0 ∨ rs.nn ≤ rs.pad len) := by
  have hroots := h.roots
  obtain ⟨hpos, hle⟩ := hlen
  unfold RsControl.pad
  omega

/-- What the encoder writes is a parity of the data. -/
theorem RsControl.Valid.isParity_encodeRs8 (h : rs.Valid) (hlen : rs.Admits data.length)
    (invmsk : Nat) :
    IsParity rs (rs.encodeRs8 data (List.replicate rs.nroots 0) invmsk).2 fun i =>
      horner rs.step (rs.root i) (data.map (rs.symbol invmsk)) := by
  rw [RsControl.encodeRs8, if_neg (h.pad_ok hlen)]
  exact h.isParity_zero.foldl_encodeSymbol h (h.symbols_lt invmsk data)

/-- The decoder finds no error in data with its parity, and leaves the data alone. -/
theorem RsControl.Valid.decode_encode (h : rs.Valid) (hlen : rs.Admits data.length)
    (invmsk : Nat) :
    rs.decodeRs8 data (rs.encodeRs8 data (List.replicate rs.nroots 0) invmsk).2 invmsk =
      some (0, data) := by
  have hdata : data ≠ [] := fun hnil => by
    rw [hnil] at hlen
    exact absurd hlen.1 (by decide)
  have hpar := h.isParity_encodeRs8 hlen invmsk
  rw [RsControl.decodeRs8, if_neg (h.pad_ok hlen)]
  refine if_pos (List.all_eq_true.mpr fun syn hsyn => ?_)
  obtain ⟨i, hi, rfl⟩ := List.mem_map.mp hsyn
  exact decide_eq_true (hpar.syndrome_eq_zero h hdata (List.mem_range.mp hi))

/-! ## The tables of `rs_init` -/

theorem getD_set {l : List Nat} {a : Nat} (hi : i < l.length) (j : Nat) :
    (l.set i a).getD j 0 = if j = i then a else l.getD j 0 := by
  grind

/-- The tables after `n` turns: the first powers of the generator, and a logarithm of each. -/
theorem fillTables_spec {n : Nat} (hn : n < 2 ^ mm) :
    ∃ alphaTo indexOf, fillTables mm gfpoly n = (alphaTo, indexOf, (mulAlpha mm gfpoly)^[n] 1) ∧
      alphaTo.length = 2 ^ mm ∧ indexOf.length = 2 ^ mm ∧
      (∀ i, alphaTo.getD i 0 = if i < n then (mulAlpha mm gfpoly)^[i] 1 else 0) ∧
      ∀ i < n, ∃ j < n, indexOf.getD ((mulAlpha mm gfpoly)^[i] 1) 0 = j ∧
        (mulAlpha mm gfpoly)^[j] 1 = (mulAlpha mm gfpoly)^[i] 1 := by
  induction n with
  | zero => exact ⟨_, _, rfl, by simp, by simp, by simp, by simp⟩
  | succ n ih =>
    obtain ⟨alphaTo, indexOf, hfill, halpha, hindex, hpow, hlog⟩ := ih (Nat.lt_of_succ_lt hn)
    have hlt : (mulAlpha mm gfpoly)^[n] 1 < 2 ^ mm := by
      cases n with
      | zero => exact hn
      | succ n =>
        rw [Function.iterate_succ_apply']
        exact mulAlpha_lt _ _ _
    refine ⟨_, _, by rw [fillTables, hfill, Function.iterate_succ_apply'], by simp [halpha],
      by simp [hindex], fun i => ?_, fun i hi => ?_⟩
    · rw [getD_set (by omega), hpow]
      grind
    · rw [getD_set (by omega)]
      grind

end AndroidKernel.ReedSolomon
