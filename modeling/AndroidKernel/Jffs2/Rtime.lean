import AndroidKernel.Library.Bytes
import AndroidKernel.Library.Words

/-!
# The rtime compressor

`fs/jffs2/compr_rtime.c`. The compressed data are pairs of a byte and the length of a run. The
run copies what followed the last byte of the same value. Compressor and decompressor each have a
table of these places. A memory access outside the data or the page is a fault, and so is the
copy of a byte that has not been written. What the decompressor has written is a list, which
`cpage_out` begins with.
-/

namespace AndroidKernel.Jffs2

open Library

abbrev Byte := BitVec 8

/-- The table `positions`, of elements of type `short`. -/
abbrev Positions := Byte → Int

/-- Conversion to a `short`. -/
def short (n : Nat) : Int :=
  Int.bmod n (2 ^ 16)

/-- `data[pos]`. -/
def fetch (data : List Byte) (pos : Int) : Exec Byte :=
  if pos < 0 then .error .fault
  else
    match data[pos.toNat]? with
    | some value => .ok value
    | none => .error .fault

/-- `cpage_out[outpos++] = value` with a page of `size` bytes. -/
def put (size : Nat) (out : List Byte) (value : Byte) : Exec (List Byte) :=
  if out.length < size then .ok (out ++ [value]) else .error .fault

/-! ## The compressor -/

/-- The inner loop of `jffs2_rtime_compress`: `pos` and `runlen` after it. -/
def runLoop (data : List Byte) : Nat → Int → Nat → Nat → Exec (Nat × Nat)
  | 0, _, _, _ => .error .unfinished
  | fuel + 1, backpos, pos, runlen =>
    if backpos < pos ∧ pos < data.length then do
      let value ← fetch data pos
      let back ← fetch data backpos
      if value = back ∧ runlen < 255 then runLoop data fuel (backpos + 1) (pos + 1) (runlen + 1)
      else .ok (pos, runlen)
    else .ok (pos, runlen)

/-- The outer loop of `jffs2_rtime_compress`: what it has written, and `pos`. -/
def compressLoop (data : List Byte) (dstlen : Nat) :
    Nat → Positions → List Byte → Nat → Exec (List Byte × Nat)
  | 0, _, _, _ => .error .unfinished
  | fuel + 1, positions, out, pos =>
    if pos < data.length ∧ out.length ≤ wsub dstlen 2 then do
      let value ← fetch data pos
      let out ← put dstlen out value
      let run ← runLoop data 256 (positions value) (pos + 1) 0
      let out ← put dstlen out (BitVec.ofNat 8 run.2)
      compressLoop data dstlen fuel (Function.update positions value (short (pos + 1))) out run.1
    else .ok (out, pos)

/-- `jffs2_rtime_compress` of `*sourcelen` bytes: on success what it has written, `*dstlen` bytes,
and the new `*sourcelen`. -/
def compress (data : List Byte) (dstlen : Nat) : Exec (Option (List Byte × Nat)) := do
  let result ← compressLoop data dstlen (data.length + 1) (fun _ => 0) [] 0
  if result.1.length ≥ result.2 then .ok none else .ok (some result)

/-! ## The decompressor -/

/-- The loop that copies the bytes of a run one by one. -/
def copyLoop (destlen : Nat) : Nat → Int → List Byte → Exec (List Byte)
  | 0, _, out => .ok out
  | n + 1, backoffs, out => do
    let value ← fetch out backoffs
    let out ← put destlen out value
    copyLoop destlen n (backoffs + 1) out

/-- `memcpy(&cpage_out[outpos], &cpage_out[backoffs], n)`. -/
def memcpy (destlen n : Nat) (backoffs : Int) (out : List Byte) : Exec (List Byte) :=
  if 0 ≤ backoffs ∧ backoffs + n ≤ out.length ∧ out.length + n ≤ destlen then
    .ok (out ++ (out.drop backoffs.toNat).take n)
  else .error .fault

/-- The bytes of a run, with or without overlap. -/
def copyRun (destlen : Nat) (rep : Byte) (backoffs : Int) (out : List Byte) : Exec (List Byte) :=
  if rep = 0 then .ok out
  else if backoffs + rep.toNat ≥ out.length then copyLoop destlen rep.toNat backoffs out
  else memcpy destlen rep.toNat backoffs out

/-- The loop of `jffs2_rtime_decompress`: what it has written, and `pos`. -/
def decompressLoop (data : List Byte) (destlen : Nat) :
    Nat → Positions → List Byte → Nat → Exec (List Byte × Nat)
  | 0, _, out, pos => if out.length < destlen then .error .unfinished else .ok (out, pos)
  | fuel + 1, positions, out, pos =>
    if out.length < destlen then do
      let value ← fetch data pos
      let out ← put destlen out value
      let rep ← fetch data (pos + 1 : Nat)
      let positions' := Function.update positions value (short out.length)
      let out ← copyRun destlen rep (positions value) out
      decompressLoop data destlen fuel positions' out (pos + 2)
    else .ok (out, pos)

/-- `jffs2_rtime_decompress` of `srclen` bytes. Every round writes a byte at least. -/
def decompress (data : List Byte) (destlen : Nat) : Exec (List Byte × Nat) :=
  decompressLoop data destlen destlen (fun _ => 0) [] 0

/-! ## Copying a run -/

theorem fetch_some {data : List Byte} {pos : Nat} {value : Byte} (h : data[pos]? = some value) :
    fetch data pos = .ok value := by
  rw [fetch, if_neg (by omega), Int.toNat_natCast, h]

theorem fetch_eq {data : List Byte} {pos : Nat} (h : pos < data.length) :
    fetch data pos = .ok data[pos] :=
  fetch_some (List.getElem?_eq_getElem h)

theorem fetch_end {data : List Byte} {pos : Nat} (h : data.length ≤ pos) :
    fetch data pos = .error .fault := by
  rw [fetch, if_neg (by omega), Int.toNat_natCast, List.getElem?_eq_none h]

theorem put_eq {size : Nat} {out : List Byte} {value : Byte} (h : out.length < size) :
    put size out value = .ok (out ++ [value]) :=
  if_pos h

variable {destlen n b p pos fuel : Nat} {data out : List Byte} {positions : Positions}

/-- The two ways to copy a run come to the same where it does not overlap. -/
theorem memcpy_eq (h : b + n ≤ out.length) (hroom : out.length ≤ destlen) :
    memcpy destlen n b out = copyLoop destlen n b out := by
  induction n generalizing b out with
  | zero =>
    rw [memcpy, if_pos ⟨by omega, by omega, by omega⟩, List.take_zero, List.append_nil]
    rfl
  | succ n ih =>
    have hb : b < out.length := by omega
    rw [copyLoop, fetch_eq hb, Exec.ok_bind]
    by_cases hlt : out.length < destlen
    · have hlen : (out ++ [out[b]]).length = out.length + 1 := List.length_append
      have htake : (out.drop b).take (n + 1) = out[b] :: (out.drop (b + 1)).take n := by
        rw [List.drop_eq_getElem_cons hb, List.take_succ_cons]
      have hdrop : ((out ++ [out[b]]).drop (b + 1)).take n = (out.drop (b + 1)).take n := by
        rw [List.drop_append_of_le_length hb, List.take_append_of_le_length]
        rw [List.length_drop]
        omega
      rw [put_eq hlt, Exec.ok_bind, ← Int.natCast_add_one, ← ih (by omega) (by omega), memcpy,
        memcpy, Int.toNat_natCast, Int.toNat_natCast, htake, hdrop, hlen, List.append_assoc,
        List.singleton_append]
      by_cases hfit : out.length + (n + 1) ≤ destlen
      · rw [if_pos ⟨by omega, by omega, hfit⟩, if_pos ⟨by omega, by omega, by omega⟩]
      · rw [if_neg (by omega), if_neg (by omega)]
    · rw [put, if_neg hlt, memcpy, if_neg (by omega)]
      rfl

/-- The copy of a run that begins within the page. -/
theorem copyRun_eq {rep : Byte} (hroom : out.length ≤ destlen) :
    copyRun destlen rep b out = copyLoop destlen rep.toNat b out := by
  unfold copyRun
  split_ifs with hzero hover
  · rw [hzero]
    rfl
  · rfl
  · exact memcpy_eq (by omega) hroom

/-- A run is copied if there is room for it. -/
theorem copyLoop_fits (hb : b < out.length) (hfit : out.length + n ≤ destlen) :
    ∃ out', copyLoop destlen n b out = .ok out' ∧ out'.length = out.length + n := by
  induction n generalizing b out with
  | zero => exact ⟨out, rfl, rfl⟩
  | succ n ih =>
    have hlen : (out ++ [out[b]]).length = out.length + 1 := List.length_append
    obtain ⟨out', hrun, hout'⟩ := @ih (b + 1) (out ++ [out[b]]) (by omega) (by omega)
    refine ⟨out', ?_, by omega⟩
    rw [copyLoop, fetch_eq hb, Exec.ok_bind, put_eq (by omega), Exec.ok_bind]
    exact hrun

theorem copyLoop_faults (hb : b < out.length) (hroom : out.length ≤ destlen)
    (hlong : destlen < out.length + n) : copyLoop destlen n b out = .error .fault := by
  induction n generalizing b out with
  | zero => omega
  | succ n ih =>
    rw [copyLoop, fetch_eq hb, Exec.ok_bind]
    by_cases hlt : out.length < destlen
    · have hlen : (out ++ [out[b]]).length = out.length + 1 := List.length_append
      rw [put_eq hlt, Exec.ok_bind]
      exact @ih (b + 1) (out ++ [out[b]]) (by omega) (by omega) (by omega)
    · rw [put, if_neg hlt]
      rfl

theorem short_eq (h : n < 2 ^ 15) : short n = n := by
  unfold short
  refine Int.bmod_eq_of_le ?_ ?_
  · omega
  · omega

/-- A round of the decompressor, while the table has places in the part that is written. -/
theorem decompressLoop_step {value rep : Byte} (hlt : out.length < destlen)
    (hvalue : data[pos]? = some value) (hrep : data[pos + 1]? = some rep)
    (hb : positions value = b) :
    decompressLoop data destlen (fuel + 1) positions out pos =
      copyLoop destlen rep.toNat b (out ++ [value]) >>= fun out' =>
        decompressLoop data destlen fuel
          (Function.update positions value (short (out.length + 1))) out' (pos + 2) := by
  have hlen : (out ++ [value]).length = out.length + 1 := List.length_append
  rw [decompressLoop, if_pos hlt, fetch_some hvalue, Exec.ok_bind, put_eq hlt, Exec.ok_bind,
    fetch_some hrep, Exec.ok_bind, hb, copyRun_eq (by omega), hlen]

/-! ## Data of any kind -/

/-- The bytes that the first pairs of the data stand for. -/
def written (data : List Byte) : Nat → Nat
  | 0 => 0
  | pairs + 1 => written data pairs + 1 + (data.getD (2 * pairs + 1) 0).toNat

theorem written_lt {i j : Nat} (h : i < j) : written data i < written data j := by
  induction h with
  | refl =>
    rw [Nat.succ_eq_add_one, written]
    omega
  | step _ ih =>
    rw [written]
    omega

/-- The pairs from number `i` on fill the page, and none of them is cut off. -/
def Fills (data : List Byte) (destlen i : Nat) : Prop :=
  ∃ pairs, i ≤ pairs ∧ 2 * pairs ≤ data.length ∧ written data pairs = destlen

theorem Fills.succ {i : Nat} (h : Fills data destlen i) (hlt : written data i < destlen) :
    Fills data destlen (i + 1) := by
  obtain ⟨pairs, hle, hlen, hfill⟩ := h
  refine ⟨pairs, ?_, hlen, hfill⟩
  refine Nat.lt_of_le_of_ne hle ?_
  rintro rfl
  omega

/-- The table has places in the part that is written. -/
def Positions.Within (positions : Positions) (n : Nat) : Prop :=
  ∀ value, ∃ b : Nat, positions value = b ∧ b ≤ n

theorem Positions.Within.update {value : Byte} {k m : Nat} (h : positions.Within n)
    (hm : m < 2 ^ 15) (hn : n ≤ k) (hmk : m ≤ k) :
    Positions.Within (Function.update positions value (short m)) k := by
  intro other
  by_cases heq : other = value
  · subst heq
    exact ⟨m, (Function.update_self _ _ _).trans (short_eq hm), hmk⟩
  · obtain ⟨b, hb, hle⟩ := h other
    exact ⟨b, (Function.update_of_ne heq _ _).trans hb, Nat.le_trans hle hn⟩

/-- A pair that is not there is read past the end. -/
theorem decompressLoop_end (hlt : out.length < destlen) (hpos : data.length ≤ pos + 1) :
    decompressLoop data destlen (fuel + 1) positions out pos = .error .fault := by
  rw [decompressLoop, if_pos hlt]
  by_cases hlast : pos < data.length
  · rw [fetch_eq hlast, Exec.ok_bind, put_eq hlt, Exec.ok_bind, fetch_end hpos]
    rfl
  · rw [fetch_end (by omega)]
    rfl

theorem decompressLoop_full {i : Nat} (hlen : out.length = written data i)
    (hfull : out.length = destlen) (hi : 2 * i ≤ data.length) :
    (∃ r, decompressLoop data destlen fuel positions out (2 * i) = .ok r) ↔
      Fills data destlen i := by
  have hstop : ¬ out.length < destlen := by omega
  refine ⟨fun _ => ⟨i, Nat.le_refl i, hi, by omega⟩, fun _ => ⟨(out, 2 * i), ?_⟩⟩
  cases fuel with
  | zero => exact if_neg hstop
  | succ fuel => exact if_neg hstop

/-- What is left of a run of the decompressor. -/
theorem decompressLoop_iff {i : Nat} (hdest : destlen < 2 ^ 15) (hlen : out.length = written data i)
    (hle : out.length ≤ destlen) (hi : 2 * i ≤ data.length) (hfuel : destlen ≤ out.length + fuel)
    (hpos : positions.Within out.length) :
    (∃ r, decompressLoop data destlen fuel positions out (2 * i) = .ok r) ↔
      Fills data destlen i := by
  induction fuel generalizing positions out i with
  | zero => exact decompressLoop_full hlen (by omega) hi
  | succ fuel ih =>
    by_cases hfull : out.length = destlen
    · exact decompressLoop_full hlen hfull hi
    by_cases hdata : 2 * i + 1 < data.length
    · obtain ⟨b, hb, hbl⟩ := hpos data[2 * i]
      have hsnoc : (out ++ [data[2 * i]]).length = out.length + 1 := List.length_append
      have hnext : written data (i + 1) = out.length + 1 + data[2 * i + 1].toNat := by
        rw [written, ← hlen, List.getD_eq_getElem?_getD, List.getElem?_eq_getElem hdata,
          Option.getD_some]
      rw [decompressLoop_step (by omega) (List.getElem?_eq_getElem (by omega))
        (List.getElem?_eq_getElem hdata) hb]
      by_cases hfit : out.length + 1 + data[2 * i + 1].toNat ≤ destlen
      · obtain ⟨out', hrun, hout'⟩ := @copyLoop_fits destlen _ b (out ++ [data[2 * i]])
          (by omega) (hsnoc ▸ hfit)
        rw [hrun, Exec.ok_bind]
        have hrest := @ih out' _ (i + 1) (by omega) (by omega) (by omega) (by omega)
          (@hpos.update _ _ data[2 * i] _ (out.length + 1) (show out.length + 1 < 2 ^ 15 by omega)
            (by omega) (by omega))
        refine hrest.trans ⟨?_, fun h => h.succ (by omega)⟩
        rintro ⟨pairs, hpairs, hrest⟩
        exact ⟨pairs, Nat.le_of_succ_le hpairs, hrest⟩
      · rw [copyLoop_faults (by omega) (by omega) (by omega)]
        refine ⟨?_, fun hfill => ?_⟩
        · rintro ⟨r, ⟨⟩⟩
        · obtain ⟨pairs, hpairs, _, heq⟩ := hfill.succ (by omega)
          rcases Nat.eq_or_lt_of_le hpairs with rfl | hlt
          · omega
          · have := @written_lt data _ _ hlt
            omega
    · rw [decompressLoop_end (by omega) (by omega)]
      refine ⟨?_, fun hfill => ?_⟩
      · rintro ⟨r, ⟨⟩⟩
      · obtain ⟨pairs, hpairs, hend, _⟩ := hfill.succ (by omega)
        omega

/-- The decompressor stays within the data and the page exactly if the page is full at the end of
a pair. -/
theorem rtime_decompress_bounded (data : List Byte) (destlen : Nat) (hdest : destlen ≤ 32767) :
    (∃ r, decompress data destlen = .ok r) ↔
      ∃ pairs, 2 * pairs ≤ data.length ∧ written data pairs = destlen := by
  refine (@decompressLoop_iff destlen destlen data [] _ 0 (by omega) rfl (Nat.zero_le _)
    (Nat.zero_le _) (Nat.le_add_left _ _) fun _ => ⟨0, rfl, Nat.le_refl 0⟩).trans ?_
  refine ⟨?_, ?_⟩
  · rintro ⟨pairs, _, hfill⟩
    exact ⟨pairs, hfill⟩
  · rintro ⟨pairs, hfill⟩
    exact ⟨pairs, Nat.zero_le _, hfill⟩

theorem rtime_decompress_bounded_run : ∃ r, decompress [65, 3] 4 = .ok r :=
  (rtime_decompress_bounded [65, 3] 4 (by decide)).mpr ⟨1, by decide, by decide⟩

/-- A run that goes on behind the end of the page. -/
theorem run_past_page : decompress [65, 5] 1 = .error .fault := by decide

/-! ## The round trip -/

/-- A run that repeats what is in the data is copied as it is in the data. -/
theorem copyLoop_take (hb : b < p) (hp : p + n ≤ data.length) (hfit : p + n ≤ destlen)
    (hsame : ∀ i, i < n → data[b + i]? = data[p + i]?) :
    copyLoop destlen n b (data.take p) = .ok (data.take (p + n)) := by
  induction n generalizing b p with
  | zero => rfl
  | succ n ih =>
    have hlen : (data.take p).length = p := List.length_take_of_le (by omega)
    have hnext : (data.take p)[b]? = some data[p] := by
      rw [List.getElem?_take_of_lt hb, ← List.getElem?_eq_getElem]
      exact hsame 0 (Nat.succ_pos n)
    rw [copyLoop, fetch_some hnext, Exec.ok_bind, put_eq (by omega), Exec.ok_bind,
      ← List.take_succ_eq_append_getElem (by omega), ← Int.natCast_add_one,
      show p + (n + 1) = p + 1 + n by omega]
    refine ih (by omega) (by omega) (by omega) fun i hi => ?_
    rw [Nat.add_right_comm, Nat.add_right_comm p]
    exact hsame (i + 1) (by omega)

/-- The inner loop finds a run that repeats what is in the data. -/
theorem runLoop_spec {runlen : Nat} (hb : b < pos) (hpos : pos ≤ data.length)
    (hrun : runlen ≤ 255) (hfuel : 256 ≤ runlen + fuel) :
    ∃ r, runLoop data fuel b pos runlen = .ok (pos + r, runlen + r) ∧ runlen + r ≤ 255 ∧
      pos + r ≤ data.length ∧ ∀ i, i < r → data[b + i]? = data[pos + i]? := by
  induction fuel generalizing b pos runlen with
  | zero => omega
  | succ fuel ih =>
    by_cases hin : (b : Int) < pos ∧ pos < data.length
    · have hfetch : data[b]? = some data[b] := List.getElem?_eq_getElem (by omega)
      rw [runLoop, if_pos hin, fetch_eq hin.2, Exec.ok_bind, fetch_some hfetch, Exec.ok_bind]
      by_cases hgo : data[pos] = data[b] ∧ runlen < 255
      · obtain ⟨r, hrest, hle, hend, hsame⟩ := @ih (b + 1) (pos + 1) (runlen + 1) (by omega)
          (by omega) (by omega) (by omega)
        refine ⟨r + 1, ?_, by omega, by omega, ?_⟩
        · rw [if_pos hgo, ← Int.natCast_add_one, hrest, Nat.add_right_comm, Nat.add_right_comm runlen]
          rfl
        · intro i hi
          cases i with
          | zero => exact hfetch.trans (hgo.1 ▸ (List.getElem?_eq_getElem hin.2).symm)
          | succ i =>
            rw [← Nat.add_assoc, Nat.add_right_comm, ← Nat.add_assoc, Nat.add_right_comm pos]
            exact hsame i (by omega)
      · rw [if_neg hgo]
        exact ⟨0, rfl, hrun, hpos, fun i hi => absurd hi (Nat.not_lt_zero i)⟩
    · rw [runLoop, if_neg hin]
      exact ⟨0, rfl, hrun, hpos, fun i hi => absurd hi (Nat.not_lt_zero i)⟩

/-- What the compressor writes from `pos` on is decompressed to the data from there on. -/
theorem compressLoop_spec {dstlen : Nat} (hdata : data.length < 2 ^ 15) (hdst : 2 ≤ dstlen)
    (hdst' : dstlen < word) (hpos : pos ≤ data.length) (hfuel : data.length < pos + fuel)
    (hout : out.length ≤ dstlen) (hwithin : positions.Within pos) :
    ∃ tail n, compressLoop data dstlen fuel positions out pos = .ok (out ++ tail, n) ∧
      pos ≤ n ∧ n ≤ data.length ∧ (out ++ tail).length ≤ dstlen ∧
      ∀ rounds, n ≤ pos + rounds →
        decompressLoop (out ++ tail) n rounds positions (data.take pos) out.length =
          .ok (data.take n, (out ++ tail).length) := by
  induction fuel generalizing positions out pos with
  | zero => omega
  | succ fuel ih =>
    have htake : (data.take pos).length = pos := List.length_take_of_le hpos
    by_cases hgo : pos < data.length ∧ out.length ≤ wsub dstlen 2
    · rw [compressLoop, if_pos hgo]
      rw [wsub_eq hdst hdst'] at hgo
      obtain ⟨hlt, hroom⟩ := hgo
      obtain ⟨b, hb, hbl⟩ := hwithin data[pos]
      obtain ⟨r, hrun, hr, hend, hsame⟩ := @runLoop_spec b (pos + 1) 256 data 0 (by omega)
        (by omega) (by omega) (by omega)
      rw [Nat.zero_add] at hrun hr
      have hlen : (out ++ [data[pos]]).length = out.length + 1 := List.length_append
      have hlen' : (out ++ [data[pos]] ++ [BitVec.ofNat 8 r]).length = out.length + 2 := by
        rw [List.length_append, hlen]
        rfl
      rw [fetch_eq hlt, Exec.ok_bind, put_eq (by omega), Exec.ok_bind, hb, hrun, Exec.ok_bind,
        put_eq (by omega), Exec.ok_bind]
      obtain ⟨tail, n, hcomp, hn, hn', htail, hback⟩ := @ih (pos + 1 + r)
        (out ++ [data[pos]] ++ [BitVec.ofNat 8 r])
        (Function.update positions data[pos] (short (pos + 1))) (by omega) (by omega) (by omega)
        (hwithin.update (by omega) (by omega) (by omega))
      have hassoc : out ++ [data[pos]] ++ [BitVec.ofNat 8 r] ++ tail =
          out ++ (data[pos] :: BitVec.ofNat 8 r :: tail) := by
        rw [List.append_assoc, List.append_assoc]
        rfl
      rw [hassoc] at hcomp htail hback
      refine ⟨_, n, hcomp, by omega, hn', htail, fun rounds hrounds => ?_⟩
      cases rounds with
      | zero => omega
      | succ rounds =>
        have hvalue : (out ++ (data[pos] :: BitVec.ofNat 8 r :: tail))[out.length]? =
            some data[pos] := by
          rw [List.getElem?_append_right (Nat.le_refl _), Nat.sub_self]
          rfl
        have hrep : (out ++ (data[pos] :: BitVec.ofNat 8 r :: tail))[out.length + 1]? =
            some (BitVec.ofNat 8 r) := by
          rw [List.getElem?_append_right (Nat.le_add_right _ _), Nat.add_sub_cancel_left]
          rfl
        have hr8 : (BitVec.ofNat 8 r).toNat = r := by
          rw [BitVec.toNat_ofNat]
          omega
        have hcopy := @copyLoop_take n r b (pos + 1) data (by omega) (by omega) (by omega) hsame
        rw [decompressLoop_step (by omega) hvalue hrep hb, hr8, htake,
          ← List.take_succ_eq_append_getElem hlt, hcopy, Exec.ok_bind]
        rw [hlen'] at hback
        exact hback rounds (by omega)
    · rw [compressLoop, if_neg hgo]
      refine ⟨[], pos, by rw [List.append_nil], Nat.le_refl pos, hpos, ?_, ?_⟩
      · rw [List.append_nil]
        exact hout
      · intro rounds _
        rw [List.append_nil]
        have hstop : ¬ (data.take pos).length < pos := by omega
        cases rounds with
        | zero => exact if_neg hstop
        | succ rounds => exact if_neg hstop

/-- The compressor writes within its `*dstlen` bytes, and what it has written is decompressed to
the first `*sourcelen` bytes of its input, all of it read and the page full. -/
theorem rtime_round_trip (data : List Byte) (dstlen : Nat) (hdata : data.length ≤ 32767)
    (hdst : 2 ≤ dstlen) (hdst' : dstlen < word) :
    ∃ r, compress data dstlen = .ok r ∧ ∀ out n, r = some (out, n) →
      out.length ≤ dstlen ∧ n ≤ data.length ∧
        decompress out n = .ok (data.take n, out.length) := by
  obtain ⟨out, n, hcomp, _, hn, hout, hback⟩ := @compressLoop_spec 0 (data.length + 1) data []
    (fun _ => 0) dstlen (by omega) hdst hdst' (Nat.zero_le _) (by omega) (Nat.zero_le _)
    fun _ => ⟨0, rfl, Nat.le_refl 0⟩
  rw [List.nil_append] at hcomp hout hback
  rw [compress, hcomp, Exec.ok_bind]
  by_cases hlong : out.length ≥ n
  · refine ⟨none, if_pos hlong, ?_⟩
    rintro _ _ ⟨⟩
  · refine ⟨some (out, n), if_neg hlong, ?_⟩
    rintro _ _ ⟨⟩
    exact ⟨hout, hn, hback n (Nat.le_add_left n 0)⟩

theorem rtime_round_trip_run : ∃ r, compress [65, 65, 65, 65, 65] 9 = .ok r ∧
    ∀ out n, r = some (out, n) → out.length ≤ 9 ∧ n ≤ 5 ∧
      decompress out n = .ok ([65, 65, 65, 65, 65].take n, out.length) :=
  rtime_round_trip [65, 65, 65, 65, 65] 9 (by decide) (by decide) (by decide)

example : compress [65, 65, 65, 65, 65] 9 = .ok (some ([65, 4], 5)) := by decide

end AndroidKernel.Jffs2
