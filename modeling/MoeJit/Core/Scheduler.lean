import MoeJit.Lib.TwoRuns
import Mathlib.Algebra.Group.Nat.Defs
import Mathlib.Data.List.Perm.Basic

/-!
# Schedulers

The events of the simulator, the order of their keys, and what a scheduler does with them. A
scheduler is a step function on `Operation`; an assertion that fails and a call on an empty list
end its run with a `Failure`.

`MapScheduler` is a map from the keys, in their order: the specification of the others.
-/

namespace MoeJit.Scheduler

/-- The key of an event. The context is not part of the order. -/
structure EventKey where
  ts : BitVec 64
  uid : BitVec 32
  context : BitVec 32
  deriving DecidableEq

/-- `impl` is the address of the implementation. -/
structure Event where
  impl : Nat
  key : EventKey
  deriving DecidableEq

namespace EventKey

/-- `operator<`. -/
def lt (a b : EventKey) : Bool :=
  if a.ts < b.ts then true
  else if a.ts = b.ts ∧ a.uid < b.uid then true
  else false

/-- `operator>`. -/
def gt (a b : EventKey) : Bool :=
  if b.ts < a.ts then true
  else if a.ts = b.ts ∧ b.uid < a.uid then true
  else false

/-- The place of a key in the order. -/
def rank (a : EventKey) : Nat := a.ts.toNat * 2 ^ 32 + a.uid.toNat

theorem lt_iff (a b : EventKey) : a.lt b = true ↔ a.rank < b.rank := by
  have ha := a.uid.isLt
  have hb := b.uid.isLt
  unfold lt rank
  simp only [BitVec.lt_def, ← BitVec.toNat_inj]
  split
  · exact iff_of_true rfl (by omega)
  · split
    · exact iff_of_true rfl (by omega)
    · exact iff_of_false Bool.false_ne_true (by omega)

theorem gt_eq_lt (a b : EventKey) : a.gt b = b.lt a := by
  unfold gt lt
  exact if_congr Iff.rfl rfl (if_congr (and_congr_left' eq_comm) rfl rfl)

theorem rank_inj {a b : EventKey} (h : a.rank = b.rank) : a.ts = b.ts ∧ a.uid = b.uid := by
  have ha := a.uid.isLt
  have hb := b.uid.isLt
  unfold rank at h
  rw [← BitVec.toNat_inj, ← BitVec.toNat_inj]
  omega

end EventKey

/-! ## Operations -/

/-- A call that cannot be made: an assertion fails or there is no event. -/
inductive Failure
  | invalid
  deriving DecidableEq

inductive Operation
  | insert (ev : Event)
  | isEmpty
  | peekNext
  | removeNext
  | remove (ev : Event)

/-- What an operation returns. -/
inductive Result
  | nothing
  | flag (value : Bool)
  | event (value : Event)
  deriving DecidableEq

/-! ## `MapScheduler` -/

/-- The map, as the list of its elements in order. -/
abbrev MapScheduler := List Event

namespace MapScheduler

/-- The element goes before the first one with a greater key, if there is none with its own. -/
def insert (ev : Event) : MapScheduler → Except Failure MapScheduler
  | [] => .ok [ev]
  | e :: list =>
    if ev.key.lt e.key then .ok (ev :: e :: list)
    else if e.key.lt ev.key then do
      let list ← insert ev list
      return e :: list
    else .error .invalid

def peekNext : MapScheduler → Except Failure Event
  | [] => .error .invalid
  | e :: _ => .ok e

def removeNext : MapScheduler → Except Failure (MapScheduler × Event)
  | [] => .error .invalid
  | e :: list => .ok (list, e)

/-- The element with the key is found in the map. -/
def remove (list : MapScheduler) (ev : Event) : Except Failure MapScheduler :=
  match list.find? fun e => !e.key.lt ev.key && !ev.key.lt e.key with
  | none => .error .invalid
  | some e => if e.impl = ev.impl then .ok (list.erase e) else .error .invalid

def perform (list : MapScheduler) : Operation → Except Failure (MapScheduler × Result)
  | .insert ev => (insert ev list).map fun list => (list, .nothing)
  | .isEmpty => .ok (list, .flag list.isEmpty)
  | .peekNext => list.peekNext.map fun e => (list, .event e)
  | .removeNext => list.removeNext.map fun result => (result.1, .event result.2)
  | .remove ev => (list.remove ev).map fun list => (list, .nothing)

/-- The keys are in order. -/
def Ordered (list : MapScheduler) : Prop := list.Pairwise fun e e' => e.key.rank < e'.key.rank

end MapScheduler

/-! ## Ledgers -/

/-- The events that are inserted and not removed, as the operations and their results say. -/
def advance (pending : List Event) : Operation → Result → List Event
  | .insert ev, _ => ev :: pending
  | .removeNext, .event ev => pending.erase ev
  | .remove ev, _ => pending.erase ev
  | _, _ => pending

section Ledger

variable {σ : Type} (perform : σ → Operation → Except Failure (σ × Result))

/-- An operation of a scheduler, with the ledger beside it. -/
def tracked (s : σ × List Event) (operation : Operation) :
    Except Failure ((σ × List Event) × Result) :=
  (perform s.1 operation).map fun result =>
    ((result.1, advance s.2 operation result.2), result.2)

def trackedStep (s : σ × List Event) (operation : Operation) : Except Failure (σ × List Event) :=
  (tracked perform s operation).map Prod.fst

end Ledger

/-- The events that are pending have different uids, and one is removed under its own key. -/
def Proper (pending : List Event) : Operation → Prop
  | .insert ev => ∀ e ∈ pending, e.key.uid ≠ ev.key.uid
  | .remove ev => ∀ e ∈ pending, e.key.uid = ev.key.uid → e = ev
  | _ => True

instance decidableProper (pending : List Event) : ∀ operation, Decidable (Proper pending operation)
  | .insert ev => inferInstanceAs (Decidable (∀ e ∈ pending, e.key.uid ≠ ev.key.uid))
  | .remove ev => inferInstanceAs (Decidable (∀ e ∈ pending, e.key.uid = ev.key.uid → e = ev))
  | .isEmpty | .peekNext | .removeNext => isTrue trivial

/-- The event is pending and no other one has a smaller key. -/
def Next (pending : List Event) (ev : Event) : Prop :=
  ev ∈ pending ∧ ∀ e ∈ pending, e.key.lt ev.key = false

/-! ## Contracts -/

/-- What the operations of a scheduler do to the events it holds, under a condition on the state
before. -/
structure Serves {σ : Type} (perform : σ → Operation → Except Failure (σ × Result))
    (contents : σ → List Event) (Inv : σ → Prop) (guard : σ → Operation → Prop) : Prop where
  insert {s : σ} {ev : Event} (hs : Inv s) (hguard : guard s (.insert ev))
    (hproper : Proper (contents s) (.insert ev)) :
    ∃ s', perform s (.insert ev) = .ok (s', .nothing) ∧ Inv s' ∧
      (contents s').Perm (ev :: contents s)
  isEmpty {s : σ} (hs : Inv s) : perform s .isEmpty = .ok (s, .flag (contents s).isEmpty)
  peekNext {s : σ} (hs : Inv s) : (contents s = [] ∧ perform s .peekNext = .error .invalid) ∨
    ∃ ev, Next (contents s) ev ∧ perform s .peekNext = .ok (s, .event ev)
  removeNext {s : σ} (hs : Inv s) : (contents s = [] ∧ perform s .removeNext = .error .invalid) ∨
    ∃ ev s', Next (contents s) ev ∧ perform s .removeNext = .ok (s', .event ev) ∧ Inv s' ∧
      (ev :: contents s').Perm (contents s)
  remove {s : σ} {ev : Event} (hs : Inv s) (hguard : guard s (.remove ev))
    (hproper : Proper (contents s) (.remove ev)) (hmem : ev ∈ contents s) :
    ∃ s', perform s (.remove ev) = .ok (s', .nothing) ∧ Inv s' ∧
      (ev :: contents s').Perm (contents s)
  remove_absent {s : σ} {ev : Event} (hs : Inv s)
    (habsent : ∀ e ∈ contents s, e.key.uid ≠ ev.key.uid) :
    perform s (.remove ev) = .error .invalid

/-! ## Refinement -/

theorem next_iff {pending : List Event} {ev : Event} :
    Next pending ev ↔ ev ∈ pending ∧ ∀ e ∈ pending, ev.key.rank ≤ e.key.rank := by
  refine and_congr_right fun _ => forall₂_congr fun e _ => ?_
  rw [← Bool.not_eq_true, EventKey.lt_iff, Nat.not_lt]

theorem Next.perm {pending pending' : List Event} {ev : Event} (h : Next pending ev)
    (hperm : pending.Perm pending') : Next pending' ev :=
  ⟨hperm.mem_iff.mp h.1, fun e he => h.2 e (hperm.mem_iff.mpr he)⟩

theorem Proper.perm {pending pending' : List Event} {operation : Operation}
    (h : Proper pending operation) (hperm : pending.Perm pending') : Proper pending' operation := by
  cases operation with
  | insert ev | remove ev => exact fun e he => h e (hperm.mem_iff.mpr he)
  | _ => trivial

namespace MapScheduler

variable {list : MapScheduler} {ev : Event}

theorem insert_ok (hordered : Ordered list) (hfresh : ∀ e ∈ list, e.key.uid ≠ ev.key.uid) :
    ∃ list', insert ev list = .ok list' ∧ Ordered list' ∧ list'.Perm (ev :: list) := by
  induction list with
  | nil => exact ⟨[ev], rfl, List.pairwise_singleton _ _, .refl _⟩
  | cons e list ih =>
    obtain ⟨hhead, hrest⟩ := List.pairwise_cons.mp hordered
    obtain ⟨he, hfresh⟩ := List.forall_mem_cons.mp hfresh
    unfold insert
    split
    · next hlt =>
      have hrank := (EventKey.lt_iff _ _).mp hlt
      refine ⟨_, rfl, List.pairwise_cons.mpr ⟨List.forall_mem_cons.mpr ⟨hrank, ?_⟩, hordered⟩, .refl _⟩
      exact fun e' he' => Nat.lt_trans hrank (hhead e' he')
    · next hnot =>
      have hle : e.key.rank ≤ ev.key.rank :=
        Nat.le_of_not_lt fun hlt => hnot ((EventKey.lt_iff _ _).mpr hlt)
      have hlt : e.key.rank < ev.key.rank :=
        Nat.lt_of_le_of_ne hle fun heq => he (EventKey.rank_inj heq).2
      obtain ⟨list', hinsert, hlist, hperm⟩ := ih hrest hfresh
      rw [if_pos ((EventKey.lt_iff _ _).mpr hlt), hinsert]
      refine ⟨e :: list', rfl, List.pairwise_cons.mpr ⟨fun e' he' => ?_, hlist⟩,
        (hperm.cons e).trans (.swap ev e list)⟩
      cases List.mem_cons.mp (hperm.mem_iff.mp he') with
      | inl heq => exact heq ▸ hlt
      | inr hmem => exact hhead e' hmem

theorem remove_ok (hproper : Proper list (.remove ev)) (hmem : ev ∈ list) :
    remove list ev = .ok (list.erase ev) := by
  have hself : (!ev.key.lt ev.key && !ev.key.lt ev.key) = true := by
    have hlt : ev.key.lt ev.key = false := by
      rw [← Bool.not_eq_true, EventKey.lt_iff]
      exact Nat.lt_irrefl _
    rw [hlt]
    rfl
  unfold remove
  split
  · next hnone => exact absurd hself (List.find?_eq_none.mp hnone ev hmem)
  · next e hfound =>
    have hkey := List.find?_some hfound
    rw [Bool.and_eq_true, Bool.not_eq_true', Bool.not_eq_true', ← Bool.not_eq_true,
      ← Bool.not_eq_true, EventKey.lt_iff, EventKey.lt_iff] at hkey
    have heq : e = ev := hproper e (List.mem_of_find?_eq_some hfound)
      (EventKey.rank_inj (Nat.le_antisymm (Nat.not_lt.mp hkey.2) (Nat.not_lt.mp hkey.1))).2
    rw [heq, if_pos rfl]

theorem remove_absent (habsent : ∀ e ∈ list, e.key.uid ≠ ev.key.uid) :
    remove list ev = .error .invalid := by
  unfold remove
  split
  · rfl
  · next e hfound =>
    have hkey := List.find?_some hfound
    rw [Bool.and_eq_true, Bool.not_eq_true', Bool.not_eq_true', ← Bool.not_eq_true,
      ← Bool.not_eq_true, EventKey.lt_iff, EventKey.lt_iff] at hkey
    exact absurd (EventKey.rank_inj (Nat.le_antisymm (Nat.not_lt.mp hkey.2)
      (Nat.not_lt.mp hkey.1))).2 (habsent e (List.mem_of_find?_eq_some hfound))

theorem eq_of_next {e : Event} (hordered : Ordered (e :: list)) (h : Next (e :: list) ev) :
    ev = e := by
  cases List.mem_cons.mp h.1 with
  | inl heq => exact heq
  | inr hmem =>
    have hlt := (List.pairwise_cons.mp hordered).1 ev hmem
    exact absurd hlt (Nat.not_lt.mpr ((next_iff.mp h).2 e List.mem_cons_self))

theorem next_cons {e : Event} (hordered : Ordered (e :: list)) : Next (e :: list) e := by
  refine next_iff.mpr ⟨List.mem_cons_self, List.forall_mem_cons.mpr ⟨Nat.le_refl _, ?_⟩⟩
  exact fun e' he' => Nat.le_of_lt ((List.pairwise_cons.mp hordered).1 e' he')

theorem serves : Serves perform id Ordered fun _ _ => True where
  insert := by
    intro list ev hordered _ hproper
    obtain ⟨list', hinsert, hordered', hperm⟩ := insert_ok hordered hproper
    refine ⟨list', ?_, hordered', hperm⟩
    unfold perform
    dsimp only
    rw [hinsert]
    rfl
  isEmpty := fun _ => rfl
  peekNext := by
    intro list hordered
    cases list with
    | nil => exact .inl ⟨rfl, rfl⟩
    | cons e list => exact .inr ⟨e, next_cons hordered, rfl⟩
  removeNext := by
    intro list hordered
    cases list with
    | nil => exact .inl ⟨rfl, rfl⟩
    | cons e list =>
      exact .inr ⟨e, list, next_cons hordered, rfl, (List.pairwise_cons.mp hordered).2, .refl _⟩
  remove := by
    intro list ev hordered _ hproper hmem
    refine ⟨list.erase ev, ?_, hordered.sublist List.erase_sublist,
      (List.perm_cons_erase hmem).symm⟩
    have hremove : remove list ev = .ok (list.erase ev) := remove_ok hproper hmem
    unfold perform
    dsimp only
    rw [hremove]
    rfl
  remove_absent := by
    intro list ev _ habsent
    have hremove : remove list ev = .error .invalid := remove_absent habsent
    unfold perform
    dsimp only
    rw [hremove]
    rfl

end MapScheduler

/-- A scheduler, its ledger and the map hold the same events. -/
structure Refines {σ : Type} (contents : σ → List Event) (Inv : σ → Prop) (s : σ × List Event)
    (list : MapScheduler) : Prop where
  inv : Inv s.1
  contents : (contents s.1).Perm s.2
  pending : list.Perm s.2
  ordered : MapScheduler.Ordered list

section Refinement

variable {σ : Type} {perform : σ → Operation → Except Failure (σ × Result)}
  {contents : σ → List Event} {Inv : σ → Prop} {guard : σ → Operation → Prop}

theorem Serves.step (h : Serves perform contents Inv guard) {s : σ × List Event}
    {list : MapScheduler} (hr : Refines contents Inv s list) (operation : Operation)
    (hproper : Proper s.2 operation) (hguard : guard s.1 operation) :
    Alike (fun x y => Refines contents Inv x.1 y.1 ∧ y.2 = x.2) (tracked perform s operation)
      (list.perform operation) := by
  obtain ⟨s, pending⟩ := s
  obtain ⟨hinv, hcontents, hpending, hordered⟩ := hr
  have hlist : (contents s).Perm list := hcontents.trans hpending.symm
  have hproper' := hproper.perm hcontents.symm
  cases operation with
  | insert ev =>
    obtain ⟨s', hok, hinv', hperm⟩ := h.insert hinv hguard hproper'
    obtain ⟨list', hok', hordered', hperm'⟩ :=
      MapScheduler.insert_ok hordered (hproper.perm hpending.symm)
    unfold tracked MapScheduler.perform
    dsimp only
    rw [hok, hok']
    exact .ok ⟨⟨hinv', hperm.trans (hcontents.cons ev), hperm'.trans (hpending.cons ev), hordered'⟩,
      rfl⟩
  | isEmpty =>
    unfold tracked MapScheduler.perform
    dsimp only
    rw [h.isEmpty hinv]
    refine .ok ⟨⟨hinv, hcontents, hpending, hordered⟩, ?_⟩
    exact congrArg Result.flag hlist.isEmpty_eq.symm
  | peekNext =>
    unfold tracked MapScheduler.perform
    dsimp only
    rcases h.peekNext hinv with ⟨hnil, herror⟩ | ⟨ev, hnext, hok⟩
    · rw [hnil] at hlist
      rw [herror, ← hlist.nil_eq]
      exact .error _
    · cases list with
      | nil => exact absurd (hlist.mem_iff.mp hnext.1) List.not_mem_nil
      | cons e list =>
        rw [hok, MapScheduler.eq_of_next hordered (hnext.perm hlist)]
        exact .ok ⟨⟨hinv, hcontents, hpending, hordered⟩, rfl⟩
  | removeNext =>
    unfold tracked MapScheduler.perform
    dsimp only
    rcases h.removeNext hinv with ⟨hnil, herror⟩ | ⟨ev, s', hnext, hok, hinv', hperm⟩
    · rw [hnil] at hlist
      rw [herror, ← hlist.nil_eq]
      exact .error _
    · cases list with
      | nil => exact absurd (hlist.mem_iff.mp hnext.1) List.not_mem_nil
      | cons e list =>
        have heq := MapScheduler.eq_of_next hordered (hnext.perm hlist)
        subst heq
        rw [hok]
        have herase {rest : List Event} (hrest : (ev :: rest).Perm pending) :
            rest.Perm (pending.erase ev) := by
          have hboth := hrest.erase ev
          rw [List.erase_cons_head] at hboth
          exact hboth
        exact .ok ⟨⟨hinv', herase (hperm.trans hcontents), herase hpending,
          (List.pairwise_cons.mp hordered).2⟩, rfl⟩
  | remove ev =>
    unfold tracked MapScheduler.perform
    dsimp only
    cases Decidable.em (ev ∈ contents s) with
    | inl hmem =>
      obtain ⟨s', hok, hinv', hperm⟩ := h.remove hinv hguard hproper' hmem
      rw [hok, MapScheduler.remove_ok (hproper.perm hpending.symm) (hlist.mem_iff.mp hmem)]
      have hrest := (hperm.trans hcontents).erase ev
      rw [List.erase_cons_head] at hrest
      exact .ok ⟨⟨hinv', hrest, hpending.erase ev, hordered.sublist List.erase_sublist⟩, rfl⟩
    | inr hnot =>
      have habsent : ∀ e ∈ contents s, e.key.uid ≠ ev.key.uid :=
        fun e he huid => hnot (hproper' e he huid ▸ he)
      rw [h.remove_absent hinv habsent,
        MapScheduler.remove_absent fun e he => habsent e (hlist.mem_iff.mpr he)]
      exact .error _

/-- The guards of the ledger and of the scheduler. -/
def guarded (guard : σ → Operation → Prop) (s : σ × List Event) (operation : Operation) : Prop :=
  Proper s.2 operation ∧ guard s.1 operation

instance (s : σ × List Event) (operation : Operation) [Decidable (guard s.1 operation)] :
    Decidable (guarded guard s operation) :=
  inferInstanceAs (Decidable (_ ∧ _))

theorem Serves.outcomes (h : Serves perform contents Inv guard) {s : σ} (hs : Inv s)
    (hempty : contents s = []) (operations : List Operation)
    (hrun : Throughout (tracked perform) (guarded guard) (s, []) operations) :
    List.Forall₂ (Alike fun x y => Refines contents Inv x.1 y.1 ∧ y.2 = x.2)
      (outcomes (tracked perform) (s, []) operations)
      (outcomes MapScheduler.perform [] operations) := by
  have hstart : Refines contents Inv (s, []) [] := by
    refine ⟨hs, ?_, .refl _, List.Pairwise.nil⟩
    show (contents s).Perm []
    rw [hempty]
  exact outcomes_alike_same (R := Refines contents Inv) (S := fun x y => y = x)
    (fun _ _ operation hr hguard => h.step hr operation hguard.1 hguard.2) operations hstart hrun

/-- The run keeps what the scheduler holds. -/
theorem Serves.run (h : Serves perform contents Inv guard) {s s' : σ} {pending : List Event}
    {operations : List Operation} (hs : Inv s) (hempty : contents s = [])
    (hrun : FallibleRun (trackedStep perform) (guarded guard) (s, []) operations (s', pending)) :
    ∃ list, Refines contents Inv (s', pending) list := by
  refine hrun.invariant (fun s => ∃ list, Refines contents Inv s list) ?_ ⟨[], hs, ?_, .refl _, .nil⟩
  · rintro s operation s' ⟨list, hr⟩ hguard hstep
    have hboth := h.step hr operation hguard.1 hguard.2
    obtain ⟨result, hok, heq⟩ := except_map_eq_ok.mp hstep
    rw [hok] at hboth
    subst heq
    generalize list.perform operation = y at hboth
    cases hboth with
    | ok hxy => exact ⟨_, hxy.1⟩
  · show (contents s).Perm []
    rw [hempty]

end Refinement

end MoeJit.Scheduler
