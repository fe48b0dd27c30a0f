import Mathlib.Data.List.Induction
import Mathlib.Data.Nat.Bitwise

/-!
# Linear shift registers

A function on numbers that commutes with exclusive or, iterated. `horner step k symbols` evaluates
the polynomial with these coefficients, highest first, where multiplying by the point is `k` steps.
-/

namespace AndroidKernel.Library

/-- A step of a register that is linear over exclusive or. -/
def Linear (step : Nat → Nat) : Prop :=
  ∀ x y, step (x ^^^ y) = step x ^^^ step y

/-- Horner's rule from a value on. -/
def hornerFrom (step : Nat → Nat) (k : Nat) (acc : Nat) (symbols : List Nat) : Nat :=
  symbols.foldl (fun acc symbol => step^[k] acc ^^^ symbol) acc

/-- Horner's rule. -/
def horner (step : Nat → Nat) (k : Nat) (symbols : List Nat) : Nat :=
  hornerFrom step k 0 symbols

variable {step : Nat → Nat} {k n x : Nat} {symbols first second : List Nat}

theorem Linear.zero (h : Linear step) : step 0 = 0 := by
  have hself := h 0 0
  rwa [Nat.xor_self, Nat.xor_self] at hself

/-- Steps in a row are linear. -/
theorem Linear.iterate (h : Linear step) (n : Nat) : Linear step^[n] := by
  intro x y
  induction n with
  | zero => rfl
  | succ n ih => rw [Function.iterate_succ_apply', Function.iterate_succ_apply', ih, h,
      Function.iterate_succ_apply']

theorem Linear.iterate_zero (h : Linear step) (n : Nat) : step^[n] 0 = 0 :=
  (h.iterate n).zero

@[simp] theorem horner_nil : horner step k [] = 0 :=
  rfl

/-- The last symbol is added to a multiple of the others. -/
theorem hornerFrom_concat (acc : Nat) (symbols : List Nat) (x : Nat) :
    hornerFrom step k acc (symbols ++ [x]) = step^[k] (hornerFrom step k acc symbols) ^^^ x :=
  List.foldl_append.trans rfl

theorem horner_concat (symbols : List Nat) (x : Nat) :
    horner step k (symbols ++ [x]) = step^[k] (horner step k symbols) ^^^ x :=
  hornerFrom_concat 0 symbols x

/-- A start value goes up by one multiple for each symbol. -/
theorem Linear.hornerFrom_eq (h : Linear step) (acc : Nat) :
    hornerFrom step k acc symbols =
      step^[k * symbols.length] acc ^^^ horner step k symbols := by
  induction symbols using List.reverseRecOn with
  | nil => exact (Nat.xor_zero _).symm
  | append_singleton symbols x ih =>
    rw [hornerFrom_concat, ih, h.iterate k, ← Function.iterate_add_apply,
      horner_concat, List.length_append, List.length_singleton, Nat.mul_add_one,
      Nat.add_comm k, Nat.xor_assoc]

theorem Linear.horner_cons (h : Linear step) (x : Nat) (symbols : List Nat) :
    horner step k (x :: symbols) = step^[k * symbols.length] x ^^^ horner step k symbols := by
  have hfrom : hornerFrom step k x symbols =
      step^[k * symbols.length] x ^^^ horner step k symbols := h.hornerFrom_eq x
  rw [← hfrom]
  show hornerFrom step k (step^[k] 0 ^^^ x) symbols = _
  rw [h.iterate_zero, Nat.zero_xor]

/-- Polynomials are added coefficient by coefficient. -/
theorem Linear.horner_xor (h : Linear step) (hlength : first.length = second.length) :
    horner step k (List.zipWith (· ^^^ ·) first second) =
      horner step k first ^^^ horner step k second := by
  induction first generalizing second with
  | nil => simp [List.length_eq_zero_iff.mp hlength.symm]
  | cons x first ih =>
    cases second with
    | nil => simp at hlength
    | cons y second =>
      have hrest := Nat.succ.inj hlength
      rw [List.zipWith_cons_cons, h.horner_cons, h.horner_cons, h.horner_cons, ih hrest,
        List.length_zipWith, hrest, min_self, h.iterate _ x y]
      simp only [Nat.xor_assoc, Nat.xor_left_comm]

/-- A constant factor comes out. -/
theorem Linear.horner_map (h : Linear step) (n : Nat) (symbols : List Nat) :
    horner step k (symbols.map step^[n]) = step^[n] (horner step k symbols) := by
  induction symbols using List.reverseRecOn with
  | nil => exact (h.iterate_zero n).symm
  | append_singleton symbols x ih =>
    rw [List.map_append, List.map_singleton, horner_concat, horner_concat, ih, h.iterate n,
      ← Function.iterate_add_apply, ← Function.iterate_add_apply, Nat.add_comm]

theorem Linear.horner_replicate_zero (h : Linear step) (n : Nat) :
    horner step k (List.replicate n 0) = 0 := by
  induction n with
  | zero => rfl
  | succ n ih =>
    rw [List.replicate_succ, h.horner_cons, ih, h.iterate_zero, Nat.xor_zero]

/-!
## Linear functions on words

A function on words that commutes with exclusive or. A feedback register shifts by one bit and adds
a constant if the bit that goes out is set. Its steps are linear, and they are plain shifts as long
as only zeros go out.
-/

variable {w : Nat} {f : BitVec w → BitVec w}

/-- A function on words that is linear over exclusive or. -/
def XorLinear (f : BitVec w → BitVec w) : Prop :=
  ∀ x y, f (x ^^^ y) = f x ^^^ f y

theorem XorLinear.zero (h : XorLinear f) : f 0 = 0 := by
  have hself := h 0 0
  rwa [BitVec.xor_self, BitVec.xor_self] at hself

/-- Steps in a row are linear. -/
theorem XorLinear.iterate (h : XorLinear f) (n : Nat) : XorLinear f^[n] := by
  intro x y
  induction n with
  | zero => rfl
  | succ n ih => rw [Function.iterate_succ_apply', Function.iterate_succ_apply', ih, h,
      Function.iterate_succ_apply']

/-- A register with feedback is linear if its shift is and the bit that goes out is additive. -/
theorem XorLinear.feedback (h : XorLinear f) {out : BitVec w → Bool} (poly : BitVec w)
    (hout : ∀ x y, out (x ^^^ y) = (out x ^^ out y)) :
    XorLinear fun x => f x ^^^ if out x then poly else 0 := by
  intro x y
  simp only [hout, h x y]
  -- Where both bits go out, the two constants cancel.
  have hcancel : f x ^^^ f y = (f x ^^^ poly) ^^^ (f y ^^^ poly) := by
    calc f x ^^^ f y = f x ^^^ f y ^^^ (poly ^^^ poly) := by
          rw [BitVec.xor_self, BitVec.xor_zero]
      _ = (f x ^^^ poly) ^^^ (f y ^^^ poly) := by ac_rfl
  cases out x <;> cases out y
  · simp
  · simp [BitVec.xor_assoc]
  · simp only [Bool.xor_false, if_true, Bool.false_eq_true, if_false]
    ac_rfl
  · simpa using hcancel

/-- The low bits of a number are added to the high ones without carries. -/
theorem ofNat_two_pow_mul_add {a n : Nat} (ha : a < 2 ^ n) (q : Nat) :
    BitVec.ofNat w (2 ^ n * q + a) = BitVec.ofNat w (2 ^ n * q) ^^^ BitVec.ofNat w a := by
  rw [← BitVec.ofNat_xor]
  congr 1
  refine Nat.eq_of_testBit_eq fun i => ?_
  rw [Nat.testBit_two_pow_mul_add q ha, Nat.testBit_xor, Nat.testBit_two_pow_mul]
  by_cases hi : i < n
  · simp [hi, Nat.not_le_of_lt hi]
  · have hle : n ≤ i := Nat.le_of_not_lt hi
    have hout : a.testBit i = false :=
      Nat.testBit_lt_two_pow (Nat.lt_of_lt_of_le ha (Nat.pow_le_pow_right Nat.two_pos hle))
    simp [hi, hle, hout]

/-- While the low bits that go out are zero, a register that shifts down does nothing else. -/
theorem iterate_eq_ushiftRight (h : ∀ x, x.getLsbD 0 = false → f x = x >>> 1) {n : Nat}
    {x : BitVec w} (hlow : ∀ i < n, x.getLsbD i = false) : f^[n] x = x >>> n := by
  induction n with
  | zero => exact (BitVec.ushiftRight_zero x).symm
  | succ n ih =>
    have hout : (x >>> n).getLsbD 0 = false := by
      rw [BitVec.getLsbD_ushiftRight]
      exact hlow n (Nat.lt_succ_self n)
    rw [Function.iterate_succ_apply', ih fun i hi => hlow i (Nat.lt_succ_of_lt hi), h _ hout,
      BitVec.shiftRight_add]

/-- While the high bits that go out are zero, a register that shifts up does nothing else. -/
theorem iterate_eq_shiftLeft (h : ∀ x, x.getMsbD 0 = false → f x = x <<< 1) {n : Nat}
    {x : BitVec w} (hhigh : ∀ i < n, x.getMsbD i = false) : f^[n] x = x <<< n := by
  induction n with
  | zero => exact (BitVec.shiftLeft_zero x).symm
  | succ n ih =>
    have hout : (x <<< n).getMsbD 0 = false := by
      rw [BitVec.getMsbD_shiftLeft, Nat.zero_add]
      exact hhigh n (Nat.lt_succ_self n)
    rw [Function.iterate_succ_apply', ih fun i hi => hhigh i (Nat.lt_succ_of_lt hi), h _ hout,
      BitVec.shiftLeft_add]

/-- What goes out of a register that shifts down decides what is added to the shift. -/
theorem XorLinear.iterate_of_low_eq (h : XorLinear f)
    (hdown : ∀ x, x.getLsbD 0 = false → f x = x >>> 1) {n : Nat} {x y : BitVec w}
    (hlow : ∀ i < n, x.getLsbD i = y.getLsbD i) (hy : y >>> n = 0) :
    f^[n] x = f^[n] y ^^^ x >>> n := by
  have hrest : f^[n] (y ^^^ x) = x >>> n := by
    rw [iterate_eq_ushiftRight hdown, BitVec.ushiftRight_xor_distrib, hy]
    · exact BitVec.zero_xor
    · intro i hi
      rw [BitVec.getLsbD_xor, hlow i hi, Bool.xor_self]
  rw [← hrest, ← h.iterate n, ← BitVec.xor_assoc, BitVec.xor_self, BitVec.zero_xor]

/-- What goes out of a register that shifts up decides what is added to the shift. -/
theorem XorLinear.iterate_of_high_eq (h : XorLinear f)
    (hup : ∀ x, x.getMsbD 0 = false → f x = x <<< 1) {n : Nat} {x y : BitVec w}
    (hhigh : ∀ i < n, x.getMsbD i = y.getMsbD i) (hy : y <<< n = 0) :
    f^[n] x = f^[n] y ^^^ x <<< n := by
  have hrest : f^[n] (y ^^^ x) = x <<< n := by
    rw [iterate_eq_shiftLeft hup, BitVec.shiftLeft_xor_distrib, hy]
    · exact BitVec.zero_xor
    · intro i hi
      rw [BitVec.getMsbD_xor, hhigh i hi, Bool.xor_self]
  rw [← hrest, ← h.iterate n, ← BitVec.xor_assoc, BitVec.xor_self, BitVec.zero_xor]

end AndroidKernel.Library
