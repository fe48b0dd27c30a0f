import Mathlib.Data.List.Basic

/-!
# Scanning for the first best element

A scan of a list keeps the best element so far: the first one of least cost among those that are
eligible and cheaper than a limit. `IsBest` says what the scan has found, and determines it.
-/

namespace AndroidKernel.Library

universe u

variable {α : Type u} {eligible : α → Prop} {cost : α → Nat} {limit : Nat}

/-- What an element has to be cheaper than to replace the best one so far. -/
def bestCost (cost : α → Nat) (limit : Nat) (best : Option α) : Nat :=
  best.elim limit cost

/-- The first eligible element of least cost among those cheaper than the limit, if any. -/
def IsBest (eligible : α → Prop) (cost : α → Nat) (limit : Nat) (l : List α) : Option α → Prop
  | none => ∀ y ∈ l, eligible y → limit ≤ cost y
  | some x => ∃ l₁ l₂, l = l₁ ++ x :: l₂ ∧ eligible x ∧ cost x < limit ∧
      (∀ y ∈ l₁, eligible y → cost x < cost y) ∧ ∀ y ∈ l₂, eligible y → cost x ≤ cost y

variable {l : List α} {best other : Option α} {x y : α}

theorem isBest_nil : IsBest eligible cost limit [] none :=
  nofun

/-- Nothing in the list is cheaper than the best element. -/
theorem IsBest.le (h : IsBest eligible cost limit l best) (hy : y ∈ l) (hel : eligible y) :
    bestCost cost limit best ≤ cost y := by
  cases best with
  | none => exact h y hy hel
  | some x =>
    obtain ⟨l₁, l₂, rfl, _, _, hbefore, hafter⟩ := h
    rcases List.mem_append.mp hy with hy | hy
    · exact Nat.le_of_lt (hbefore y hy hel)
    · rcases List.mem_cons.mp hy with rfl | hy
      · exact Nat.le_refl _
      · exact hafter y hy hel

theorem IsBest.mem (h : IsBest eligible cost limit l (some x)) :
    x ∈ l ∧ eligible x ∧ cost x < limit := by
  obtain ⟨l₁, l₂, rfl, hx, hlimit, _, _⟩ := h
  exact ⟨List.mem_append_right _ (List.mem_cons_self ..), hx, hlimit⟩

theorem IsBest.bestCost_le (h : IsBest eligible cost limit l best) :
    bestCost cost limit best ≤ limit := by
  cases best with
  | none => exact Nat.le_refl _
  | some x => exact Nat.le_of_lt h.mem.2.2

/-- The scan goes past elements that are no better. -/
theorem IsBest.append (h : IsBest eligible cost limit l best) {r : List α}
    (hr : ∀ y ∈ r, eligible y → bestCost cost limit best ≤ cost y) :
    IsBest eligible cost limit (l ++ r) best := by
  cases best with
  | none =>
    intro y hy
    rcases List.mem_append.mp hy with hy | hy
    · exact h y hy
    · exact hr y hy
  | some x =>
    obtain ⟨l₁, l₂, rfl, hx, hlimit, hbefore, hafter⟩ := h
    refine ⟨l₁, l₂ ++ r, by rw [List.append_assoc, List.cons_append], hx, hlimit, hbefore, ?_⟩
    intro y hy
    rcases List.mem_append.mp hy with hy | hy
    · exact hafter y hy
    · exact hr y hy

/-- A cheaper element replaces the best one. -/
theorem IsBest.replace (h : IsBest eligible cost limit l best) (hy : eligible y)
    (hlt : cost y < bestCost cost limit best) :
    IsBest eligible cost limit (l ++ [y]) (some y) :=
  ⟨l, [], rfl, hy, Nat.lt_of_lt_of_le hlt h.bestCost_le,
    fun _ hz hel => Nat.lt_of_lt_of_le hlt (h.le hz hel), nofun⟩

/-- The first of two best elements is the second. -/
theorem IsBest.eq_of_some (h : IsBest eligible cost limit l (some x))
    (hother : IsBest eligible cost limit l (some y)) : x = y := by
  obtain ⟨l₁, l₂, rfl, hx, _, hbefore, hafter⟩ := h
  obtain ⟨m₁, m₂, hl, hy, _, hbefore', hafter'⟩ := hother
  rcases List.append_eq_append_iff.mp hl with ⟨r, rfl, hr⟩ | ⟨r, rfl, hr⟩
  · cases r with
    | nil => exact (List.cons.inj hr).1
    | cons z r =>
      obtain ⟨rfl, rfl⟩ := List.cons.inj hr
      have hlt := hbefore' x (List.mem_append_right _ (List.mem_cons_self ..)) hx
      have hle := hafter y (List.mem_append_right _ (List.mem_cons_self ..)) hy
      omega
  · cases r with
    | nil => exact (List.cons.inj hr).1.symm
    | cons z r =>
      obtain ⟨rfl, rfl⟩ := List.cons.inj hr
      have hlt := hbefore y (List.mem_append_right _ (List.mem_cons_self ..)) hy
      have hle := hafter' x (List.mem_append_right _ (List.mem_cons_self ..)) hx
      omega

theorem IsBest.unique (h : IsBest eligible cost limit l best)
    (hother : IsBest eligible cost limit l other) : best = other := by
  cases best with
  | none =>
    cases other with
    | none => rfl
    | some y =>
      obtain ⟨hmem, hy, hlimit⟩ := hother.mem
      exact absurd (h y hmem hy) (Nat.not_le_of_lt hlimit)
  | some x =>
    cases other with
    | none =>
      obtain ⟨hmem, hx, hlimit⟩ := h.mem
      exact absurd (hother x hmem hx) (Nat.not_le_of_lt hlimit)
    | some y => rw [h.eq_of_some hother]

/-!
## The positions a scan finds

A scan from a position on passes over some positions and finds those among them where a predicate
holds. Scans of ranges that follow each other find what one scan of the whole range finds.
-/

variable {p q : Nat → Bool} {i k m n : Nat}

/-- The positions of `[i, i + k)` where `p` holds, in ascending order. -/
def hits (p : Nat → Bool) (i k : Nat) : List Nat :=
  (List.range' i k).filter p

theorem hits_zero (p : Nat → Bool) (i : Nat) : hits p i 0 = [] :=
  rfl

theorem hits_succ (p : Nat → Bool) (i k : Nat) :
    hits p i (k + 1) = if p i then i :: hits p (i + 1) k else hits p (i + 1) k := by
  unfold hits
  rw [List.range'_succ, List.filter_cons]

theorem hits_add (p : Nat → Bool) (i m n : Nat) :
    hits p i (m + n) = hits p i m ++ hits p (i + m) n := by
  unfold hits
  rw [← List.range'_append_1, List.filter_append]

theorem hits_congr (h : ∀ j, i ≤ j → j < i + k → p j = q j) : hits p i k = hits q i k := by
  refine List.filter_congr fun j hj => ?_
  obtain ⟨hle, hlt⟩ := List.mem_range'_1.mp hj
  exact h j hle hlt

theorem hits_eq_nil (h : ∀ j, i ≤ j → j < i + k → p j = false) : hits p i k = [] := by
  refine List.filter_eq_nil_iff.mpr fun j hj => ?_
  obtain ⟨hle, hlt⟩ := List.mem_range'_1.mp hj
  rw [h j hle hlt]
  exact Bool.false_ne_true

/-- What is passed over without a hit does not count. -/
theorem hits_skip (n : Nat) (h : ∀ j, i ≤ j → j < i + m → p j = false) :
    hits p i (m + n) = hits p (i + m) n := by
  rw [hits_add, hits_eq_nil h, List.nil_append]

theorem mem_hits {j : Nat} : j ∈ hits p i k ↔ (i ≤ j ∧ j < i + k) ∧ p j = true := by
  unfold hits
  rw [List.mem_filter, List.mem_range'_1]

/-- What a scan of a part has found, if it is enough, is what comes first. -/
theorem take_hits (hle : m ≤ k) (hlen : (hits p i m).length = n) :
    (hits p i k).take n = hits p i m := by
  obtain ⟨rest, rfl⟩ := Nat.exists_eq_add_of_le hle
  rw [hits_add, ← hlen, List.take_left']
  rfl

end AndroidKernel.Library
