import Mathlib.Data.List.Infix

/-!
# Lanes of pending operations

Operations are issued one after the other; those that are not done wait in a
queue, and a loop over a copy of the queue goes on with them. An operation that
becomes done takes the front entry off the queue, whichever entry that is.

`InOrder` is what makes this right: a copy, less what is no longer pending, is
always a prefix of the queue, so that a loop which reaches a pending operation
has reached its front. `flatMap_set_first` and `flatMap_set_last` follow the
data of the operations when one of them changes.
-/

/-- The operations in the order in which they were issued, and the positions of
the pending ones. -/
structure Lane (α : Type*) where
  ops : List α := []
  pending : List Nat := []

namespace Lane

open List

variable {α β : Type*} (done : α → Bool)

/-- A new operation is pending unless it is done at once. -/
def issue (l : Lane α) (x : α) : Lane α where
  ops := l.ops ++ [x]
  pending := if done x then l.pending else l.pending ++ [l.ops.length]

/-- Operation `k`, if it is in the queue. -/
def queued (l : Lane α) (k : Nat) : Option α := if k ∈ l.pending then l.ops[k]? else none

/-- Operation `k` goes on and is then `x`. -/
def resume (l : Lane α) (k : Nat) (x : α) : Lane α where
  ops := l.ops.set k x
  pending := if done x then l.pending.tail else l.pending

/-- The queue holds the operations that are not done, in the order of issue. -/
structure Tidy (l : Lane α) : Prop where
  sorted : l.pending.Pairwise (· < ·)
  mem_iff : ∀ k, k ∈ l.pending ↔ ∃ x, l.ops[k]? = some x ∧ done x = false

variable {done} {l : Lane α} {k : Nat} {x y : α} {rest : List Nat}

theorem tidy_empty : Tidy done ({} : Lane α) where
  sorted := List.Pairwise.nil
  mem_iff k := by simp

theorem Tidy.lt_length (h : l.Tidy done) (hk : k ∈ l.pending) : k < l.ops.length := by
  obtain ⟨x, hx, -⟩ := (h.mem_iff k).mp hk
  exact (List.getElem?_eq_some_iff.mp hx).1

theorem Tidy.nodup (h : l.Tidy done) : l.pending.Nodup := h.sorted.imp fun hlt => Nat.ne_of_lt hlt

theorem Tidy.done_before (h : l.Tidy done) (hp : l.pending = k :: rest) {j : Nat} (hj : j < k)
    (hx : l.ops[j]? = some x) : done x = true := by
  cases hd : done x with
  | true => rfl
  | false =>
    have hmem : j ∈ k :: rest := hp ▸ (h.mem_iff j).mpr ⟨x, hx, hd⟩
    have hsorted := hp ▸ h.sorted
    cases hmem with
    | head => exact absurd hj (lt_irrefl _)
    | tail _ hrest => exact absurd (rel_of_pairwise_cons hsorted hrest) (lt_asymm hj)

theorem Tidy.issue (h : l.Tidy done) (x : α) : (l.issue done x).Tidy done := by
  have hget : ∀ k y, (l.ops ++ [x])[k]? = some y ↔
      l.ops[k]? = some y ∨ (k = l.ops.length ∧ x = y) := fun k y => by
    rcases lt_trichotomy k l.ops.length with hlt | rfl | hgt
    · rw [getElem?_append_left hlt]
      simp [hlt.ne]
    · simp
    · have hout : l.ops[k]? = none := getElem?_eq_none hgt.le
      have hout' : (l.ops ++ [x])[k]? = none := getElem?_eq_none (by simp only [length_append, length_singleton]; exact hgt)
      simp [hout, hout', hgt.ne']
  cases hd : done x with
  | true =>
    refine ⟨by simpa [Lane.issue, hd] using h.sorted, fun k => ?_⟩
    simp only [Lane.issue, hd, if_true, h.mem_iff, hget]
    refine ⟨fun ⟨y, hy, hny⟩ => ⟨y, .inl hy, hny⟩, ?_⟩
    rintro ⟨y, hy | ⟨rfl, rfl⟩, hny⟩
    · exact ⟨y, hy, hny⟩
    · rw [hd] at hny
      cases hny
  | false =>
    constructor
    · simp only [Lane.issue, hd, Bool.false_eq_true, if_false]
      refine pairwise_append.mpr ⟨h.sorted, pairwise_singleton _ _, fun a ha b hb => ?_⟩
      rw [mem_singleton.mp hb]
      exact h.lt_length ha
    · intro k
      simp only [Lane.issue, hd, Bool.false_eq_true, if_false, mem_append, h.mem_iff, hget,
        mem_singleton]
      constructor
      · rintro (⟨y, hy, hny⟩ | rfl)
        · exact ⟨y, .inl hy, hny⟩
        · exact ⟨x, .inr ⟨rfl, rfl⟩, hd⟩
      · rintro ⟨y, hy | ⟨rfl, -⟩, hny⟩
        · exact .inl ⟨y, hy, hny⟩
        · exact .inr rfl

theorem getElem?_set_of_get (hy : l.ops[k]? = some y) (x : α) (j : Nat) :
    (l.ops.set k x)[j]? = if j = k then some x else l.ops[j]? := by
  have hlt := (List.getElem?_eq_some_iff.mp hy).1
  rw [getElem?_set]
  by_cases hjk : k = j
  · simp [hjk, hjk ▸ hlt]
  · simp [hjk, Ne.symm hjk]

/-- The operation that goes on has to be the front one: then the entry taken off
the queue is its own. -/
theorem Tidy.resume (h : l.Tidy done) (hp : l.pending = k :: rest) (hy : l.ops[k]? = some y) :
    (l.resume done k x).Tidy done := by
  have hsorted := hp ▸ h.sorted
  have hnot : k ∉ rest := fun hk => lt_irrefl _ (rel_of_pairwise_cons hsorted hk)
  have hrest : ∀ j, j ≠ k → (j ∈ rest ↔ ∃ z, l.ops[j]? = some z ∧ done z = false) := fun j hj => by
    rw [← h.mem_iff, hp, mem_cons]
    simp [hj]
  cases hd : done x with
  | true =>
    refine ⟨?_, fun j => ?_⟩
    · simpa [Lane.resume, hd, hp] using hsorted.of_cons
    · simp only [Lane.resume, hd, hp, if_true, tail_cons, getElem?_set_of_get hy]
      by_cases hjk : j = k
      · simp [hjk, hnot, hd]
      · simp [hjk, hrest j hjk]
  | false =>
    refine ⟨?_, fun j => ?_⟩
    · simpa [Lane.resume, hd] using h.sorted
    · simp only [Lane.resume, hd, Bool.false_eq_true, if_false, getElem?_set_of_get hy, hp,
        mem_cons]
      by_cases hjk : j = k
      · simp [hjk, hd]
      · simp [hjk, hrest j hjk]

theorem Tidy.of_queued (h : l.Tidy done) (hq : l.queued k = some x) :
    k ∈ l.pending ∧ l.ops[k]? = some x ∧ done x = false := by
  unfold queued at hq
  split at hq
  case isFalse => cases hq
  case isTrue hk =>
    obtain ⟨y, hy, hnot⟩ := (h.mem_iff k).mp hk
    rw [hq] at hy
    cases hy
    exact ⟨hk, hq, hnot⟩

/-! ## Another view of the operations -/

section

variable {done' : β → Bool} {f g : α → β}

/-- The same queue with another view of its operations. -/
def map (f : α → β) (l : Lane α) : Lane β := ⟨l.ops.map f, l.pending⟩

theorem Tidy.of_map (h : (l.map f).Tidy done') (hf : ∀ x, done' (f x) = done x) : l.Tidy done where
  sorted := h.sorted
  mem_iff k := by
    rw [show k ∈ l.pending ↔ k ∈ (l.map f).pending from Iff.rfl, h.mem_iff]
    simp [map, hf]

theorem map_issue (hx : done' (g x) = done x) (hrest : ∀ (k : Nat) y, l.ops[k]? = some y → g y = f y) :
    (l.issue done x).map g = (l.map f).issue done' (g x) := by
  have hops : l.ops.map g = l.ops.map f := map_congr_left fun y hy => by
    obtain ⟨k, hk⟩ := mem_iff_getElem?.mp hy
    exact hrest k y hk
  simp [map, issue, hx, hops]

theorem map_resume (hx : done' (g x) = done x)
    (hrest : ∀ (j : Nat) y, j ≠ k → l.ops[j]? = some y → g y = f y) :
    (l.resume done k x).map g = (l.map f).resume done' k (g x) := by
  have hops : (l.ops.set k x).map g = (l.ops.map f).set k (g x) := by
    refine ext_getElem? fun j => ?_
    simp only [getElem?_map, getElem?_set, length_map]
    split
    · split <;> rfl
    · rename_i hj
      cases hy : l.ops[j]? with
      | none => rfl
      | some y => exact congrArg some (hrest j y (Ne.symm hj) hy)
  simp [map, resume, hx, hops]

end

/-! ## Loops over a copy of the queue -/

/-- What a loop still has to go through, less what is no longer pending, is where
the queue begins. -/
def InOrder (ids pending : List Nat) : Prop := ids.filter (· ∈ pending) <+: pending

variable {ids pending : List Nat}

theorem InOrder.refl (pending : List Nat) : InOrder pending pending := by
  have hself : pending.filter (· ∈ pending) = pending :=
    filter_eq_self.mpr fun k hk => decide_eq_true hk
  rw [InOrder, hself]

/-- An operation that the loop reaches while it is pending is the front one. -/
theorem InOrder.front (h : InOrder (k :: ids) pending) (hk : k ∈ pending) :
    ∃ rest, pending = k :: rest := by
  rw [InOrder, filter_cons_of_pos (by simpa using hk)] at h
  obtain ⟨rest, hrest⟩ := h
  exact ⟨_, hrest.symm⟩

theorem InOrder.skip (h : InOrder (k :: ids) pending) (hk : k ∉ pending) : InOrder ids pending := by
  rwa [InOrder, filter_cons_of_neg (by simpa using hk)] at h

theorem InOrder.append (h : InOrder ids pending) (hk : k ∉ ids) : InOrder ids (pending ++ [k]) := by
  have hsame : ids.filter (· ∈ pending ++ [k]) = ids.filter (· ∈ pending) :=
    filter_congr fun j hj => by
      have hjk : j ≠ k := fun heq => hk (heq ▸ hj)
      simp [hjk]
  rw [InOrder, hsame]
  exact h.trans (prefix_append _ _)

theorem InOrder.tail (h : InOrder ids (k :: rest)) (hk : k ∉ rest) : InOrder ids rest := by
  have hsame : ids.filter (· ∈ rest) = (ids.filter (· ∈ k :: rest)).filter (· ∈ rest) := by
    rw [filter_filter]
    refine filter_congr fun j _ => ?_
    by_cases hj : j ∈ rest <;> simp [hj]
  rw [InOrder, hsame]
  rw [InOrder] at h
  cases hids : ids.filter (· ∈ k :: rest) with
  | nil => exact nil_prefix
  | cons j more =>
    rw [hids] at h
    obtain ⟨rfl, hmore⟩ := cons_prefix_cons.mp h
    rw [filter_cons_of_neg (by simpa using hk)]
    exact (filter_eq_self.mpr fun i hi => decide_eq_true (hmore.subset hi)).symm ▸ hmore

/-- The operations a loop has still to go through, against the queue it copied. -/
structure Copy (l : Lane α) (ids : List Nat) : Prop where
  inOrder : InOrder ids l.pending
  lt_length : ∀ k ∈ ids, k < l.ops.length

theorem Tidy.copy (h : l.Tidy done) : l.Copy l.pending := ⟨.refl _, fun _ hk => h.lt_length hk⟩

theorem Copy.skip (h : l.Copy (k :: ids)) (hk : k ∉ l.pending) : l.Copy ids :=
  ⟨h.inOrder.skip hk, fun j hj => h.lt_length j (mem_cons_of_mem _ hj)⟩

theorem Copy.issue (h : l.Copy ids) (x : α) : (l.issue done x).Copy ids where
  inOrder := by
    unfold Lane.issue
    cases done x with
    | true => exact h.inOrder
    | false => exact h.inOrder.append fun hk => lt_irrefl _ (h.lt_length _ hk)
  lt_length k hk := by
    rw [Lane.issue, length_append]
    exact Nat.lt_add_right _ (h.lt_length k hk)

theorem Copy.resume (h : l.Copy ids) (htidy : l.Tidy done) (hp : l.pending = k :: rest) :
    (l.resume done k x).Copy ids where
  inOrder := by
    unfold Lane.resume
    cases done x with
    | true =>
      have hnodup := hp ▸ htidy.nodup
      have hord := hp ▸ h.inOrder
      rw [hp]
      exact hord.tail (nodup_cons.mp hnodup).1
    | false => exact h.inOrder
  lt_length j hj := by
    rw [Lane.resume, length_set]
    exact h.lt_length j hj

theorem Copy.next (h : l.Copy (k :: ids)) (htidy : l.Tidy done) (hp : l.pending = k :: rest)
    (hx : done x = true) : (l.resume done k x).Copy ids := by
  refine (h.resume htidy hp).skip ?_
  have hnodup := hp ▸ htidy.nodup
  rw [Lane.resume, hx, if_pos rfl, hp]
  exact (nodup_cons.mp hnodup).1

/-! ## The data of the operations -/

variable {f : α → List β} {ops : List α} {moved : List β}

section

variable (hk : ops[k]? = some y)
include hk

theorem flatMap_set_first (hfirst : ∀ j < k, ∀ z, ops[j]? = some z → f z = [])
    (hy : f y = moved ++ f x) : ops.flatMap f = moved ++ (ops.set k x).flatMap f := by
  induction ops generalizing k with
  | nil => cases hk
  | cons z ops ih =>
    cases k with
    | zero =>
      cases hk
      simp [hy]
    | succ k =>
      have hz : f z = [] := hfirst 0 (Nat.succ_pos k) z rfl
      have hrec := ih hk fun j hj z' hz' => hfirst (j + 1) (Nat.succ_lt_succ hj) z' hz'
      simpa [hz] using hrec

theorem flatMap_set_last (hlast : ∀ j > k, ∀ z, ops[j]? = some z → f z = [])
    (hx : f x = f y ++ moved) : (ops.set k x).flatMap f = ops.flatMap f ++ moved := by
  induction ops generalizing k with
  | nil => cases hk
  | cons z ops ih =>
    cases k with
    | zero =>
      cases hk
      have hempty : ops.flatMap f = [] := flatMap_eq_nil_iff.mpr fun w hw => by
        obtain ⟨j, hj⟩ := mem_iff_getElem?.mp hw
        exact hlast (j + 1) (Nat.succ_pos j) w hj
      simp [hx, hempty]
    | succ k =>
      have hrec := ih hk fun j hj z' hz' => hlast (j + 1) (Nat.succ_lt_succ hj) z' hz'
      simp [hrec]

theorem flatMap_set_same (hx : f x = f y) :
    (ops.set k x).flatMap f = ops.flatMap f := by
  induction ops generalizing k with
  | nil => cases hk
  | cons z ops ih =>
    cases k with
    | zero =>
      cases hk
      simp [hx]
    | succ k =>
      have hrec := ih hk
      simp [hrec]

theorem perm_flatMap_set (hx : (f x).Perm (f y ++ moved)) :
    ((ops.set k x).flatMap f).Perm (ops.flatMap f ++ moved) := by
  induction ops generalizing k with
  | nil => cases hk
  | cons z ops ih =>
    cases k with
    | zero =>
      cases hk
      simp only [set_cons_zero, flatMap_cons]
      calc (f x ++ ops.flatMap f).Perm (f y ++ moved ++ ops.flatMap f) := hx.append_right _
        _ = f y ++ (moved ++ ops.flatMap f) := append_assoc _ _ _
        List.Perm _ (f y ++ (ops.flatMap f ++ moved)) := perm_append_comm.append_left _
        _ = f y ++ ops.flatMap f ++ moved := (append_assoc _ _ _).symm
    | succ k =>
      simp only [set_cons_succ, flatMap_cons, append_assoc]
      exact (ih hk).append_left _

end

end Lane
