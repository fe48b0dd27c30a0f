import AndroidKernel.Idr.Tree

/-!
# Sequences of calls to the id allocator

Read `idr_get_new_above_least` first. The ids handed out are followed in a map. The tree holds
the map as long as every allocation starts where the search cannot run over the end of the tree
from below its top layer, or over the end of all ids the layers can tell apart (`CanReach`).
-/

namespace AndroidKernel.Idr

open Library

universe u

variable {α : Type u}

/-- An idr that holds a map. -/
structure Represents (s : Idr α) (M : IdMap α) : Prop where
  clean : Clean s.idFree
  tree : (s.layers = 0 ∧ s.top = .null ∧ ∀ j, M j = none) ∨ ∃ L, s.layers = L + 1 ∧ Holds L s.top M

/-- `starting_id` is one that the layers can tell apart from smaller ones, and if the tree has no
free id from there on, it can grow, and no free id before `starting_id` below the last slot of
the top layer. -/
def CanReach (s : Idr α) (M : IdMap α) (start : Nat) : Prop :=
  start < 2 ^ (idrBits * (maxLevel - 1)) ∧
    (start < 2 ^ (idrBits * s.layers) →
      (∀ j, start ≤ j → j < 2 ^ (idrBits * s.layers) → M j ≠ none) →
      s.layers < maxLevel - 1 ∧
        ∀ j, 2 ^ (idrBits * s.layers) - 2 ^ (idrBits * (s.layers - 1)) ≤ j → j < start →
          M j ≠ none)

theorem Holds.isSome_iff_used {L j : Nat} {T : Ptr α} {M : IdMap α} (h : Holds L T M)
    (hj : j < 2 ^ (idrBits * (L + 1))) : M j ≠ none ↔ Idr.used L T j = true := by
  rw [← Option.isSome_iff_ne_none, h.used j]
  exact and_iff_right hj

/-- `idr_find` reads the map. -/
theorem Represents.idrFind {s : Idr α} {M : IdMap α} (h : Represents s M) {j : Nat}
    (hj : j < maxIdBit) : idrFind s j = some (.ofUser (M j).join) := by
  unfold Idr.idrFind
  rcases h.tree with ⟨-, htop, hM⟩ | ⟨L, -, hT⟩
  · rw [htop, hM j]
    rfl
  obtain ⟨bitmap, ary, count, heq⟩ := hT.wellFormed.exists_layer
  rw [heq] at hT ⊢
  dsimp only
  rw [Nat.mod_eq_of_lt hj, Nat.mul_comm]
  by_cases hroom : 2 ^ (idrBits * (L + 1)) ≤ j
  · rw [if_pos hroom]
    have hnone : M j = none := by
      by_contra hcon
      have := ((hT.used j).1 (Option.isSome_iff_ne_none.2 hcon)).1
      omega
    rw [hnone]
    rfl
  rw [if_neg hroom, hT.wellFormed.findDown]
  cases hM : M j with
  | none =>
    have hunused : used L (.layer bitmap ary count L) j = false := by
      by_contra hcon
      exact (hT.isSome_iff_used (by omega)).2 (by simpa using hcon) hM
    rw [hT.wellFormed.value_of_not_used hunused]
    rfl
  | some x => rw [hT.value j x hM, Option.join_some]

/-! ## Allocation -/

/-- How an allocation may end. -/
def Allocates (M : IdMap α) (x : Option α) (start : Nat) : Idr α × Result → Prop
  | (s, .id i) => start ≤ i ∧ i < maxIdBit ∧ M i = none ∧
      (∀ j, start ≤ j → j < i → M j ≠ none) ∧ Represents s (Function.update M i (some x))
  | (s, .eagain) => Represents s M
  | _ => False

/-- What `idr_get_new_above` does with enough rounds for its loops. -/
def Gets (s : Idr α) (x : Option α) (start : Nat) (s' : Idr α) (r : Result) : Prop :=
  ∃ bound, ∀ fuel, bound ≤ fuel → idrGetNewAbove fuel s x start = (s', r)

/-- The first free id from `i` on, or the end of the range. -/
theorem exists_least (M : IdMap α) {i n : Nat} (hle : i ≤ n) :
    ∃ f, i ≤ f ∧ f ≤ n ∧ (f < n → M f = none) ∧ ∀ j, i ≤ j → j < f → M j ≠ none := by
  have hex : ∃ f, i ≤ f ∧ (f = n ∨ M f = none) := ⟨n, hle, .inl rfl⟩
  classical
  obtain ⟨hge, hor⟩ := Nat.find_spec hex
  have hmin : Nat.find hex ≤ n := Nat.find_min' hex ⟨hle, .inl rfl⟩
  refine ⟨Nat.find hex, hge, hmin, fun hlt => hor.resolve_left (Nat.ne_of_lt hlt), ?_⟩
  intro j hj hjf hM
  exact Nat.find_min hex hjf ⟨hj, .inr hM⟩

/-- The layer at which an allocation begins, with how many there are. -/
def firstLayer (s : Idr α) : Option (Ptr α × Nat × List (Ptr α)) :=
  if s.top.isNull then (getFromFreeList s.idFree).map fun (p, free) => (p.setLevel 0, 1, free)
  else some (s.top, s.layers, s.idFree)

theorem buildUp_succ (x : Option α) (fuel : Nat) (s : Idr α) (id : Nat) :
    buildUp x (fuel + 1) s id =
      match firstLayer s with
      | none => (s, .eagain)
      | some (p, layers, free) =>
        match growLoop id maxLevel 0 p layers free with
        | (none, free) => ({ s with idFree := free }, .eagain)
        | (some (top, layers), free) =>
          match subAllocLoop layers fuel top [] (layers - 1) id free with
          | (.found p path id, free) => (⟨install p path id x, layers, free⟩, .id id)
          | (.needToGrow top id, free) => buildUp x fuel ⟨top, layers, free⟩ id
          | (.noMoreSpace top, free) => (⟨top, layers, free⟩, .enospc)
          | (.noMemory top, free) => (⟨top, layers, free⟩, .eagain)
          | (.crash, free) => (⟨top, layers, free⟩, .crash)
          | (.endless, free) => (⟨top, layers, free⟩, .endless) := by
  rw [buildUp]
  rfl

theorem Represents.firstLayer {s : Idr α} {M : IdMap α} (h : Represents s M) :
    firstLayer s = none ∨ ∃ p L free, firstLayer s = some (p, L + 1, free) ∧ Holds L p M ∧
      Clean free ∧ (s.layers = L + 1 ∨ ∀ j, M j = none) := by
  unfold Idr.firstLayer
  rcases h.tree with ⟨-, htop, hM⟩ | ⟨L, hL, hT⟩
  · rw [htop, if_pos (show (Ptr.null : Ptr α).isNull = true from rfl)]
    cases hget : getFromFreeList s.idFree with
    | none => exact .inl rfl
    | some taken =>
      obtain ⟨p, free⟩ := taken
      obtain ⟨⟨level, rfl⟩, hclean⟩ := getFromFreeList_spec h.clean hget
      refine .inr ⟨_, 0, free, rfl, ?_, hclean, .inr hM⟩
      refine ⟨by decide, wellFormed_zero 0, fun j => ?_, fun j x hx => ?_⟩
      · rw [hM j]
        exact ⟨nofun, nofun⟩
      · rw [hM j] at hx
        cases hx
  · rw [if_neg (by rw [hT.wellFormed.isNull]; nofun)]
    exact .inr ⟨s.top, L, s.idFree, by rw [hL], hT, h.clean, .inl hL⟩

/-- An allocation, given what happens where the tree is full from the start on and has to grow. -/
theorem Represents.buildUp {s : Idr α} {M : IdMap α} {start : Nat} (h : Represents s M)
    (hreach : CanReach s M start) (x : Option α)
    (hgrow : ∀ s₁ : Idr α, Represents s₁ M → s₁.layers = s.layers →
      start < 2 ^ (idrBits * s.layers) →
      (∀ j, start ≤ j → j < 2 ^ (idrBits * s.layers) → M j ≠ none) →
      ∃ s' r, Gets s₁ x (2 ^ (idrBits * s.layers)) s' r ∧
        Allocates M x (2 ^ (idrBits * s.layers)) (s', r)) :
    ∃ s' r, Gets s x start s' r ∧ Allocates M x start (s', r) := by
  obtain ⟨hstart, hend⟩ := hreach
  have hfuel (fuel : Nat) (h : 1 ≤ fuel) : ∃ k, fuel = k + 1 := ⟨fuel - 1, by omega⟩
  rcases h.firstLayer with hnone | ⟨p, L, free, hfirst, hp, hclean, hlayers⟩
  · refine ⟨s, .eagain, ⟨1, fun fuel hle => ?_⟩, h⟩
    obtain ⟨k, rfl⟩ := hfuel fuel hle
    rw [idrGetNewAbove, buildUp_succ, hnone]
  rcases growLoop_spec hp hstart (show Built 0 p from trivial) hclean
    (show maxLevel ≤ maxLevel + L by omega) with
    ⟨free₁, hloop, hclean₁⟩ | ⟨T, L', free₁, hloop, hclean₁, hT, hle, hroom, hsame⟩
  · refine ⟨{ s with idFree := free₁ }, .eagain, ⟨1, fun fuel hle => ?_⟩, ⟨hclean₁, h.tree⟩⟩
    obtain ⟨k, rfl⟩ := hfuel fuel hle
    rw [idrGetNewAbove, buildUp_succ, hfirst]
    dsimp only
    rw [hloop]
  obtain ⟨f, hsf, hfle, hffree, hleast⟩ := exists_least M (Nat.le_of_lt hroom)
  -- if nothing is free up to the end of the tree, it has not just grown
  have hfull (hf : f = 2 ^ (idrBits * (L' + 1))) : s.layers = L' + 1 := by
    have hused := hleast start (Nat.le_refl _) (by omega)
    have hold := ((hp.used start).1 (Option.isSome_iff_ne_none.2 hused)).1
    rw [hsame hold]
    exact hlayers.resolve_right fun hM => hused (hM start)
  have hcap : idrBits * (L' + 1) < 31 := by
    have hlevel := hT.level
    unfold maxLevel idrBits at hlevel
    unfold idrBits
    omega
  have hunused (hlt : f < 2 ^ (idrBits * (L' + 1))) : used L' T f = false := by
    by_contra hcon
    exact (hT.isSome_iff_used hlt).2 (by simpa using hcon) (hffree hlt)
  have hinUse {j : Nat} (hj : start ≤ j) (hjf : j < f) : used L' T j = true :=
    (hT.isSome_iff_used (by omega)).1 (hleast j hj hjf)
  have hrest (hf : f = 2 ^ (idrBits * (L' + 1))) : start < 2 ^ (idrBits * s.layers) ∧
      ∀ j, start ≤ j → j < 2 ^ (idrBits * s.layers) → M j ≠ none := by
    rw [hfull hf, ← hf]
    exact ⟨by omega, hleast⟩
  have hlast (hf : f = 2 ^ (idrBits * (L' + 1))) (j : Nat)
      (hj : 2 ^ (idrBits * (L' + 1)) - 2 ^ (idrBits * L') ≤ j) (hjs : j < start) :
      used L' T j = true := by
    have hroot := (hend (hrest hf).1 (hrest hf).2).2
    rw [hfull hf, Nat.add_sub_cancel] at hroot
    exact (hT.isSome_iff_used (by omega)).1 (hroot j hj hjs)
  obtain ⟨r, free₂, hrun, hclean₂, hfinds⟩ := subAllocLoop_spec hcap
    (show WellFormed L' (plug [] T) from hT.wellFormed) (show Shape start L' L' [] from rfl)
    hT.wellFormed.isNull hroom hsf hfle hunused (fun _ => hinUse) hlast (.inl rfl) hclean₁
  have hstep {k : Nat} (hk : (f - start) * (L' + 1) + L' < k) : idrGetNewAbove (k + 1) s x start =
      match r with
      | .found p path id => (⟨install p path id x, L' + 1, free₂⟩, .id id)
      | .needToGrow top id => Idr.buildUp x k ⟨top, L' + 1, free₂⟩ id
      | .noMoreSpace top => (⟨top, L' + 1, free₂⟩, .enospc)
      | .noMemory top => (⟨top, L' + 1, free₂⟩, .eagain)
      | .crash => (⟨T, L' + 1, free₂⟩, .crash)
      | .endless => (⟨T, L' + 1, free₂⟩, .endless) := by
    rw [idrGetNewAbove, buildUp_succ, hfirst]
    dsimp only
    rw [hloop]
    dsimp only
    rw [Nat.add_sub_cancel, hrun k hk]
    cases r with
    | found p path id => rfl
    | needToGrow top id => rfl
    | noMoreSpace top => rfl
    | noMemory top => rfl
    | crash => rfl
    | endless => rfl
  cases r with
  | found q path id =>
    obtain ⟨rfl, hlt, hshape, hq, hwf, hagree⟩ := hfinds
    refine ⟨⟨install q path id x, L' + 1, free₂⟩, .id id,
      ⟨(id - start) * (L' + 1) + L' + 2, fun fuel hle => ?_⟩, hsf, ?_, hffree hlt, hleast,
      hclean₂, .inr ⟨L', rfl, ?_⟩⟩
    · obtain ⟨k, rfl⟩ := hfuel fuel (by omega)
      exact hstep (by omega)
    · have := pow_le_maxIdBit hcap
      omega
    · exact install_spec hshape hlt hq (hT.agree hwf hagree) (hffree hlt) x
  | needToGrow T' id =>
    obtain ⟨rfl, hf, hwf, hagree⟩ := hfinds
    have hlayers' := hfull hf
    obtain ⟨s', r, ⟨bound, hgets⟩, halloc⟩ := hgrow ⟨T', L' + 1, free₂⟩
      ⟨hclean₂, .inr ⟨L', rfl, hT.agree hwf hagree⟩⟩ hlayers'.symm (hrest hf).1 (hrest hf).2
    rw [hlayers', ← hf] at hgets halloc
    refine ⟨s', r, ⟨bound + (id - start) * (L' + 1) + L' + 2, fun fuel hle => ?_⟩, ?_⟩
    · obtain ⟨k, rfl⟩ := hfuel fuel (by omega)
      rw [hstep (by omega)]
      exact hgets k (by omega)
    cases r with
    | id i =>
      obtain ⟨hle, hlt, hfree, hleast', hrep⟩ := halloc
      refine ⟨by omega, hlt, hfree, fun j hj hji => ?_, hrep⟩
      by_cases hjid : j < id
      · exact hleast j hj hjid
      · exact hleast' j (by omega) hji
    | eagain => exact halloc
    | enospc => exact halloc
    | crash => exact halloc
    | endless => exact halloc
  | noMemory T' =>
    obtain ⟨hwf, hagree⟩ := hfinds
    refine ⟨⟨T', L' + 1, free₂⟩, .eagain, ⟨(f - start) * (L' + 1) + L' + 2, fun fuel hle => ?_⟩,
      hclean₂, .inr ⟨L', rfl, hT.agree hwf hagree⟩⟩
    obtain ⟨k, rfl⟩ := hfuel fuel (by omega)
    exact hstep (by omega)
  | noMoreSpace => exact hfinds.elim
  | crash => exact hfinds.elim
  | endless => exact hfinds.elim

/-- From a start within reach, an allocation takes the least free id or fails. -/
theorem Represents.idrGetNewAbove {s : Idr α} {M : IdMap α} {start : Nat} (h : Represents s M)
    (hreach : CanReach s M start) (x : Option α) :
    ∃ s' r, Gets s x start s' r ∧ Allocates M x start (s', r) := by
  refine h.buildUp hreach x fun s₁ h₁ hlayers hroom hused => ?_
  have hcan := (hreach.2 hroom hused).1
  have hpow : 2 ^ (idrBits * s.layers) < 2 ^ (idrBits * (maxLevel - 1)) := by
    refine Nat.pow_lt_pow_right (by omega) (Nat.mul_lt_mul_of_pos_left hcan ?_)
    decide
  rw [← hlayers] at hpow ⊢
  exact h₁.buildUp ⟨hpow, fun hlt => absurd hlt (Nat.lt_irrefl _)⟩ x
    fun _ _ _ hlt => absurd hlt (Nat.lt_irrefl _)

/-! ## The other calls -/

theorem idrPreGet_spec {n : Nat} {s : Idr α} {M : IdMap α} (h : Represents s M) :
    Represents (idrPreGet n s) M := by
  induction n generalizing s with
  | zero => exact h
  | succ n ih =>
    unfold idrPreGet
    split
    · refine ih ⟨fun p hp => ?_, h.tree⟩
      rcases List.mem_cons.1 hp with rfl | hp
      · exact ⟨0, rfl⟩
      · exact h.clean p hp
    · exact h

/-- The tree of `removeFinish`, which may lose its top layer. -/
theorem removeFinish_tree {s : Idr α} {M : IdMap α} (h : Represents s M) :
    Represents (match s.top with
      | .layer _ ary count _ =>
        if count = 1 ∧ 1 < s.layers ∧ (ary 0).isNull = false then
          { s with top := ary 0, layers := s.layers - 1 }
        else s
      | _ => s) M := by
  split
  · rename_i bitmap ary count level htop
    split
    · rename_i hcond
      obtain ⟨rfl, hlayers, hchild⟩ := hcond
      rcases h.tree with ⟨hzero, -⟩ | ⟨L, hL, hT⟩
      · omega
      · obtain ⟨L, rfl⟩ : ∃ k, L = k + 1 := ⟨L - 1, by omega⟩
        rw [htop] at hT
        obtain ⟨rfl, -⟩ := hT.wellFormed
        refine ⟨h.clean, .inr ⟨L, ?_, hT.shrink hchild⟩⟩
        dsimp only
        omega
    · exact h
  · exact h

theorem removeFinish_spec {s : Idr α} {M : IdMap α} (h : Represents s M) :
    Represents (removeFinish s) M := by
  unfold removeFinish
  have hshrink := removeFinish_tree h
  exact ⟨fun p hp => hshrink.clean p (List.mem_of_mem_drop hp), hshrink.tree⟩

theorem idrRemove_spec {s : Idr α} {M : IdMap α} {id : Nat} (h : Represents s M)
    (hid : id < maxIdBit) (hused : M id ≠ none) :
    Represents (idrRemove s id) (Function.update M id none) := by
  rcases h.tree with ⟨-, -, hM⟩ | ⟨L, hL, hT⟩
  · exact absurd (hM id) hused
  obtain ⟨hlt, huse⟩ := (hT.used id).1 (Option.isSome_iff_ne_none.2 hused)
  have hremoves := subRemove_spec hT.wellFormed huse
  -- below the end of the tree, an id is its own remainder
  have hother {j : Nat} (hj : j < 2 ^ (idrBits * (L + 1))) (hne : j ≠ id) :
      j % 2 ^ (idrBits * (L + 1)) ≠ id % 2 ^ (idrBits * (L + 1)) := by
    rwa [Nat.mod_eq_of_lt hj, Nat.mod_eq_of_lt hlt]
  unfold idrRemove
  rw [Nat.mod_eq_of_lt hid, hL, Nat.add_sub_cancel]
  cases hsub : subRemove id L s.top with
  | gone =>
    rw [hsub] at hremoves
    refine removeFinish_spec ⟨h.clean, .inl ⟨rfl, rfl, fun j => ?_⟩⟩
    by_cases hj : j = id
    · rw [hj, Function.update_self]
    · rw [Function.update_of_ne hj]
      by_contra hcon
      obtain ⟨hjlt, hjused⟩ := (hT.used j).1 (Option.isSome_iff_ne_none.2 hcon)
      exact hother hjlt hj (hremoves j hjused)
  | kept top =>
    rw [hsub] at hremoves
    obtain ⟨hwf, hgone, hrest⟩ := hremoves
    refine removeFinish_spec ⟨h.clean, .inr ⟨L, rfl, hT.level, hwf, fun j => ?_, fun j x hx => ?_⟩⟩
    · by_cases hj : j = id
      · rw [hj, Function.update_self, hgone]
        exact ⟨nofun, fun h => nomatch h.2⟩
      · rw [Function.update_of_ne hj, hT.used j]
        exact and_congr_right fun hjlt => by rw [(hrest j (hother hjlt hj)).1]
    · by_cases hj : j = id
      · rw [hj, Function.update_self] at hx
        cases hx
      · rw [Function.update_of_ne hj] at hx
        have hjlt := ((hT.used j).1 (by rw [hx]; rfl)).1
        rw [(hrest j (hother hjlt hj)).2]
        exact hT.value j x hx
  | warning top =>
    rw [hsub] at hremoves
    exact hremoves.elim

/-! ## Runs -/

/-- One call, with the map of the ids handed out. -/
def Step (s : Idr α × IdMap α) (op : Op α) (s' : Idr α × IdMap α) : Prop :=
  match op with
  | .preGet n => s'.1 = idrPreGet n s.1 ∧ s'.2 = s.2
  | .getNewAbove x start => start < maxIdBit ∧ ∃ r, Gets s.1 x start s'.1 r ∧
      s'.2 = match r with
        | .id i => Function.update s.2 i (some x)
        | _ => s.2
  | .remove id => id < maxIdBit ∧ s.2 id ≠ none ∧ s'.1 = idrRemove s.1 id ∧
      s'.2 = Function.update s.2 id none

/-- Every allocation starts within reach. -/
def startsInReach (s : Idr α × IdMap α) : Op α → Prop
  | .getNewAbove _ start => CanReach s.1 s.2 start
  | _ => True

theorem Gets.unique {s s₁ s₂ : Idr α} {x : Option α} {start : Nat} {r₁ r₂ : Result}
    (h₁ : Gets s x start s₁ r₁) (h₂ : Gets s x start s₂ r₂) : s₁ = s₂ ∧ r₁ = r₂ := by
  obtain ⟨b₁, h₁⟩ := h₁
  obtain ⟨b₂, h₂⟩ := h₂
  have heq := (h₁ (b₁ + b₂) (by omega)).symm.trans (h₂ (b₁ + b₂) (by omega))
  exact Prod.mk.inj heq

theorem Represents.step {s s' : Idr α × IdMap α} {op : Op α} (h : Represents s.1 s.2)
    (hok : startsInReach s op) (hstep : Step s op s') : Represents s'.1 s'.2 := by
  cases op with
  | preGet n =>
    obtain ⟨h₁, h₂⟩ := hstep
    rw [h₁, h₂]
    exact idrPreGet_spec h
  | getNewAbove x start =>
    obtain ⟨-, r, hgets, hM⟩ := hstep
    obtain ⟨s₁, r₁, hgets₁, halloc⟩ := h.idrGetNewAbove hok x
    obtain ⟨rfl, rfl⟩ := hgets.unique hgets₁
    rw [hM]
    cases r with
    | id i => exact halloc.2.2.2.2
    | eagain => exact halloc
    | enospc => exact halloc.elim
    | crash => exact halloc.elim
    | endless => exact halloc.elim
  | remove id =>
    obtain ⟨hid, hused, h₁, h₂⟩ := hstep
    rw [h₁, h₂]
    exact idrRemove_spec h hid hused

theorem represents_initial : Represents (Idr.initial : Idr α) fun _ => none :=
  ⟨nofun, .inl ⟨rfl, rfl, fun _ => rfl⟩⟩

/-- What is promised of an allocation that leads from `s` to `s'`. -/
def Correct (s s' : Idr α) (M : IdMap α) (x : Option α) (start : Nat) : Result → Prop
  | .id i => start ≤ i ∧ i < maxIdBit ∧ M i = none ∧ (∀ j, start ≤ j → j < i → M j ≠ none) ∧
      idrFind s' i = some (.ofUser x) ∧ ∀ j, j < maxIdBit → j ≠ i → idrFind s' j = idrFind s j
  | .eagain => ∀ j, j < maxIdBit → idrFind s' j = idrFind s j
  | .enospc => ∀ j, j < maxIdBit → idrFind s' j = idrFind s j
  | _ => False

/-- Whatever calls were made, with allocations that start within reach: an allocation ends; if it
succeeds, it returns the least free id from its start on, for which `idr_find` then returns the
pointer, and in any case `idr_find` returns what it did for all other ids. -/
theorem idr_get_new_above_least {s : Idr α} {M : IdMap α} {start : Nat}
    (hrun : Reaches Step startsInReach (Idr.initial, fun _ => none) (s, M))
    (hreach : CanReach s M start) (x : Option α) :
    ∃ s' r, Gets s x start s' r ∧ Correct s s' M x start r := by
  have hrep : Represents s M :=
    hrun.invariant (fun s => Represents s.1 s.2) (fun _ _ _ h hok hstep => h.step hok hstep)
      represents_initial
  obtain ⟨s', r, hgets, halloc⟩ := hrep.idrGetNewAbove hreach x
  refine ⟨s', r, hgets, ?_⟩
  cases r with
  | id i =>
    obtain ⟨hle, hlt, hfree, hleast, hrep'⟩ := halloc
    refine ⟨hle, hlt, hfree, hleast, ?_, fun j hj hne => ?_⟩
    · rw [hrep'.idrFind hlt, Function.update_self, Option.join_some]
    · rw [hrep'.idrFind hj, hrep.idrFind hj, Function.update_of_ne hne]
  | eagain =>
    intro j hj
    rw [Represents.idrFind halloc hj, hrep.idrFind hj]
  | enospc => exact halloc.elim
  | crash => exact halloc.elim
  | endless => exact halloc.elim

/-- An empty idr with a full free list. -/
def preloaded : Idr Nat :=
  idrPreGet idrFreeMax Idr.initial

theorem reaches_preloaded (ok : Idr Nat × IdMap Nat → Op Nat → Prop)
    (hok : ok (Idr.initial, fun _ => none) (.preGet idrFreeMax)) :
    Reaches Step ok (Idr.initial, fun _ => none) (preloaded, fun _ => none) := by
  have hstep : Step ((Idr.initial : Idr Nat), fun _ => none) (.preGet idrFreeMax)
      (preloaded, fun _ => none) := ⟨rfl, rfl⟩
  exact (Reaches.refl _).tail hstep hok

theorem idr_get_new_above_least_preloaded :
    CanReach preloaded (fun _ => none) 5 ∧
      ∃ s' r, Gets preloaded (some 7) 5 s' r ∧ Correct preloaded s' (fun _ => none) (some 7) 5 r :=
  have hreach : CanReach preloaded (fun _ => none) 5 := ⟨by decide, fun h => absurd h (by decide)⟩
  ⟨hreach, idr_get_new_above_least (reaches_preloaded startsInReach trivial) hreach (some 7)⟩

/-- The layers of a tree tell 30 bits apart. From `2 ^ 30` on, the id returned is that of no slot
that `idr_find` looks at. -/
theorem idr_find_misses_new_id : ¬ ∀ (s s' : Idr Nat) (M : IdMap Nat) (start : Nat) (x : Option Nat)
    (r : Result), Reaches Step anyStep (Idr.initial, fun _ => none) (s, M) → start < maxIdBit →
      Gets s x start s' r → Correct s s' M x start r := by
  intro h
  have hgets : Gets preloaded (some 7) (2 ^ 30)
      (idrGetNewAbove 8 preloaded (some 7) (2 ^ 30)).1 (.id (2 ^ 30)) := by
    refine ⟨8, fun fuel hle => ?_⟩
    obtain ⟨k, rfl⟩ : ∃ k, fuel = k + 8 := ⟨fuel - 8, by omega⟩
    rfl
  have hfind : idrFind (idrGetNewAbove 8 preloaded (some 7) (2 ^ 30)).1 (2 ^ 30) =
      some (.user 7) :=
    (h _ _ _ _ _ _ (reaches_preloaded anyStep trivial) (by decide) hgets).2.2.2.2.1
  have hnull : idrFind (idrGetNewAbove 8 preloaded (some 7) (2 ^ 30)).1 (2 ^ 30) = some .null := rfl
  rw [hnull] at hfind
  cases hfind

end AndroidKernel.Idr
