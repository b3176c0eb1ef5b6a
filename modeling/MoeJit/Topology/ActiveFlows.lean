import Mathlib.Algebra.Order.Group.Multiset
import Mathlib.Algebra.Order.Sub.Basic
import Mathlib.Data.List.AList
import Mathlib.Tactic.Abel

/-!
# Active flows

The flows of the predictions in effect, which `FattreeTopology` and
`DragonflyTopology` keep in a vector for the optimisation: what is pushed at the begin of a window
and erased at its end. What the optimisation then does to the network is left
out, and so is the log.

`roundTrip_fattree` and `roundTrip_dragonfly`: which additions are undone by the
clearing of their window. In the fat tree they are, unless there are no windows at all; then
the clearing adds what is missing. The dragonfly adds a flow of its own in place of
those it is given, and without windows its clearing adds again what it has erased.
-/

namespace MoeJit.ActiveFlows

open List
open Multiset (coe_add coe_count coe_eq_zero coe_nil le_add_left mem_coe singleton_le)

/-! ## 1. The topologies -/

abbrev Flow := Nat × Nat

/-- An entry of `batchCommsizeMap[batchID]`. -/
structure Window where
  start : Int
  stop : Int

/-- The members that the functions read. Without windows the topology is in ideal mode and
`flows1` are the known flows. -/
structure Topology where
  now : Int
  flows : List Flow
  flows1 : List Flow
  batchCommsizeMap : AList fun _ : Int => AList fun _ : Nat => Window

namespace Topology

/-- The window of a batch and a size. -/
def window (st : Topology) (batchID : Int) (comm_size : Nat) : Option Window := do
  let sizes ← st.batchCommsizeMap.lookup batchID
  sizes.lookup comm_size

/-- `batchCommsizeMap.size() == 0`. -/
def ideal (st : Topology) : Bool := st.batchCommsizeMap.entries.isEmpty

/-- There is no earlier start of the optimisation, or the topology is in ideal mode. -/
def takesEffect (st : Topology) (batchID : Int) (comm_size : Nat) : Bool :=
  (st.window batchID comm_size).any (fun w => w.start = st.now) || st.ideal

/-- There is a later end of the optimisation. -/
def endsLater (st : Topology) (batchID : Int) (comm_size : Nat) : Bool :=
  (st.window batchID comm_size).any fun w => st.now < w.stop

def push (st : Topology) (new_flows : List Flow) : Topology :=
  { st with flows := st.flows ++ new_flows }

end Topology

/-- The loop that erases each flow where it is found first, and whether one was found. -/
def eraseFound (flows new_flows : List Flow) : List Flow × Bool :=
  new_flows.foldl (fun (flows, changed) new_flow =>
    if new_flow ∈ flows then (flows.erase new_flow, true) else (flows, changed)) (flows, false)

/-- The loop that pushes each flow that is not found. -/
def pushMissing (flows new_flows : List Flow) : List Flow :=
  new_flows.foldl (fun flows new_flow =>
    if new_flow ∈ flows then flows else flows ++ [new_flow]) flows

namespace FattreeTopology

def addFlows (new_flows : List Flow) (batchID : Int) (comm_size : Nat) (st : Topology) :
    Topology :=
  if st.takesEffect batchID comm_size then
    if st.ideal then st.push st.flows1 else st.push new_flows
  else st

def clearFlows (new_flows : List Flow) (comm_size : Nat) (batchID : Int) (st : Topology) :
    Topology :=
  if st.endsLater batchID comm_size then st
  else if st.ideal then { st with flows := pushMissing st.flows st.flows1 }
  else { st with flows := (eraseFound st.flows new_flows).1 }

end FattreeTopology

namespace DragonflyTopology

/-- The flow from the first server to itself, which shall mark calls by `clear_flows`. -/
def markerFlow (server0 : Nat) : Flow := (server0, server0)

/-- The local `new_flows`, not the parameter `flows`, is what is added. -/
def multipleIncrementalChanges (server0 : Nat) (_flows : List Flow) (batchID : Int)
    (comm_size : Nat) (st : Topology) : Topology :=
  let new_flows := [markerFlow server0]
  if st.takesEffect batchID comm_size then
    if st.ideal then st.push st.flows1 else st.push new_flows
  else st

def clearFlows (server0 : Nat) (new_flows : List Flow) (comm_size : Nat) (batchID : Int)
    (st : Topology) : Topology :=
  if st.endsLater batchID comm_size then st
  else
    let (flows, changed) :=
      if st.ideal then eraseFound st.flows st.flows1 else eraseFound st.flows new_flows
    let st := { st with flows := flows }
    if changed then
      multipleIncrementalChanges server0 [markerFlow server0] batchID comm_size st
    else st

end DragonflyTopology

/-! ## 2. Statement -/

/-- The announced flows are active after the addition; and when the flows of other jobs have
come in between, the clearing at some later time leaves the previous flows and theirs. -/
def RoundTrip (add clear : Topology → Topology) (announced : List Flow) (st : Topology)
    (later : Int) : Prop :=
  (announced : Multiset Flow) ≤ (add st).flows ∧
  ∀ others : List Flow,
    ((clear { add st with now := later, flows := (add st).flows ++ others }).flows : Multiset Flow) =
      (st.flows : Multiset Flow) + others

/-! ## 3. Loops -/

theorem foldl_eraseFound (flows new_flows : List Flow) (changed : Bool) :
    new_flows.foldl (fun (flows, changed) new_flow =>
        if new_flow ∈ flows then (flows.erase new_flow, true) else (flows, changed))
      (flows, changed) = (flows.diff new_flows, changed || new_flows.any (· ∈ flows)) := by
  induction new_flows generalizing flows changed with
  | nil => rw [foldl_nil, diff_nil, any_nil, Bool.or_false]
  | cons f new_flows ih =>
    rw [foldl_cons, diff_cons, any_cons]
    cases List.instDecidableMemOfLawfulBEq f flows with
    | isTrue hmem =>
      show new_flows.foldl _ (if f ∈ flows then (flows.erase f, true) else (flows, changed)) = _
      rw [if_pos hmem, ih]
      simp only [hmem, decide_true, Bool.true_or, Bool.or_true]
    | isFalse hmem =>
      show new_flows.foldl _ (if f ∈ flows then (flows.erase f, true) else (flows, changed)) = _
      rw [if_neg hmem, ih, erase_of_not_mem hmem]
      simp only [hmem, decide_false, Bool.false_or]

theorem eraseFound_eq (flows new_flows : List Flow) :
    eraseFound flows new_flows = (flows.diff new_flows, new_flows.any (· ∈ flows)) :=
  foldl_eraseFound flows new_flows false

theorem coe_diff (flows new_flows : List Flow) :
    ((flows.diff new_flows : List Flow) : Multiset Flow) = (flows : Multiset Flow) - new_flows := by
  ext f
  rw [Multiset.count_sub, coe_count, coe_count, coe_count]
  -- the two ways to compare pairs agree
  have hbeq : (instBEqOfDecidableEq : BEq Flow) = instBEqProd := lawful_beq_subsingleton _ _
  rw [hbeq]
  exact count_diff f flows new_flows

theorem pushMissing_of_subset {flows new_flows : List Flow} (h : ∀ f ∈ new_flows, f ∈ flows) :
    pushMissing flows new_flows = flows := by
  unfold pushMissing
  induction new_flows with
  | nil => rfl
  | cons f new_flows ih =>
    rw [foldl_cons, if_pos (h f mem_cons_self)]
    exact ih fun f' hf' => h f' (mem_cons_of_mem f hf')

theorem endsLater_later {st : Topology} {batchID later : Int} {comm_size : Nat}
    (hends : ∀ w ∈ st.window batchID comm_size, w.stop ≤ later) (flows : List Flow) :
    ({ st with now := later, flows := flows } : Topology).endsLater batchID comm_size = false := by
  show (st.window batchID comm_size).any (fun w => decide (later < w.stop)) = false
  cases hw : st.window batchID comm_size with
  | none => rfl
  | some w => exact decide_eq_false (Int.not_lt.mpr (hends w hw))

/-! ## 4. The fat tree -/

section

variable {st : Topology} {batchID later : Int} {comm_size : Nat} {new_flows : List Flow}

namespace FattreeTopology

theorem addFlows_eq (htakes : st.takesEffect batchID comm_size = true) :
    addFlows new_flows batchID comm_size st =
      st.push (if st.ideal then st.flows1 else new_flows) := by
  unfold addFlows
  rw [if_pos htakes]
  split
  · rfl
  · rfl

theorem clearFlows_eq (hends : st.endsLater batchID comm_size = false) :
    clearFlows new_flows comm_size batchID st =
      { st with flows :=
          if st.ideal then pushMissing st.flows st.flows1 else st.flows.diff new_flows } := by
  unfold clearFlows
  rw [hends, if_neg Bool.false_ne_true, eraseFound_eq]
  split
  · rfl
  · rfl

end FattreeTopology

/-- The fat tree undoes an addition when there are windows, or when there is nothing it
could add. -/
theorem roundTrip_fattree (htakes : st.takesEffect batchID comm_size = true)
    (hends : ∀ w ∈ st.window batchID comm_size, w.stop ≤ later) :
    RoundTrip (FattreeTopology.addFlows new_flows batchID comm_size)
        (FattreeTopology.clearFlows new_flows comm_size batchID) new_flows st later ↔
      (st.ideal = true → st.flows1 = [] ∧ (new_flows : Multiset Flow) ≤ st.flows) := by
  have hpush (added : List Flow) : ∀ w ∈ (st.push added).window batchID comm_size,
      w.stop ≤ later := hends
  have hclear (added others : List Flow) : (FattreeTopology.clearFlows new_flows comm_size batchID
      { st.push added with now := later, flows := (st.push added).flows ++ others }).flows =
      if st.ideal then pushMissing (st.flows ++ added ++ others) st.flows1
      else (st.flows ++ added ++ others).diff new_flows :=
    congrArg Topology.flows (FattreeTopology.clearFlows_eq (endsLater_later (hpush added) _))
  unfold RoundTrip
  rw [FattreeTopology.addFlows_eq htakes]
  simp only [hclear]
  show ((new_flows : Multiset Flow) ≤ ((st.flows ++ _ : List Flow) : Multiset Flow) ∧ _) ↔ _
  cases hideal : st.ideal with
  | false =>
    simp only [Bool.false_eq_true, if_false, false_imp_iff, iff_true]
    constructor
    · rw [← coe_add]
      exact le_add_left _ _
    · intro others
      rw [coe_diff, ← coe_add, ← coe_add, add_right_comm, add_tsub_cancel_right]
  | true =>
    simp only [if_true, forall_const]
    have hmissing (others : List Flow) : pushMissing (st.flows ++ st.flows1 ++ others) st.flows1 =
        st.flows ++ st.flows1 ++ others :=
      pushMissing_of_subset fun f hf =>
        mem_append_left others (mem_append_right st.flows hf)
    simp only [hmissing, ← coe_add]
    constructor
    · rintro ⟨hle, heq⟩
      have hnil : (st.flows1 : Multiset Flow) = 0 := by
        have hsum := heq []
        rwa [coe_nil, add_zero, add_zero, add_eq_left] at hsum
      rw [hnil, add_zero] at hle
      exact ⟨(coe_eq_zero _).mp hnil, hle⟩
    · rintro ⟨hnil, hle⟩
      rw [hnil, coe_nil, add_zero]
      exact ⟨hle, fun _ => rfl⟩

/-! ## 5. The dragonfly -/

namespace DragonflyTopology

variable {server0 : Nat}

theorem multipleIncrementalChanges_eq (flows : List Flow)
    (htakes : st.takesEffect batchID comm_size = true) :
    multipleIncrementalChanges server0 flows batchID comm_size st =
      st.push (if st.ideal then st.flows1 else [markerFlow server0]) := by
  unfold multipleIncrementalChanges
  rw [if_pos htakes]
  split
  · rfl
  · rfl

theorem flows_multipleIncrementalChanges (flows : List Flow) :
    (multipleIncrementalChanges server0 flows batchID comm_size st).flows =
      st.flows ++ if st.takesEffect batchID comm_size then
        if st.ideal then st.flows1 else [markerFlow server0]
      else [] := by
  unfold multipleIncrementalChanges
  cases st.takesEffect batchID comm_size with
  | false => exact (append_nil _).symm
  | true =>
    cases st.ideal with
    | false => rfl
    | true => rfl

theorem flows_clearFlows (hends : st.endsLater batchID comm_size = false) :
    (clearFlows server0 new_flows comm_size batchID st).flows =
      let erased := if st.ideal then st.flows1 else new_flows
      st.flows.diff erased ++
        if erased.any (· ∈ st.flows) && st.takesEffect batchID comm_size then
          if st.ideal then st.flows1 else [markerFlow server0]
        else [] := by
  have hchanged (erased : List Flow) :
      (if erased.any (· ∈ st.flows) then
          multipleIncrementalChanges server0 [markerFlow server0] batchID comm_size
            { st with flows := st.flows.diff erased }
        else { st with flows := st.flows.diff erased }).flows =
      st.flows.diff erased ++
        if erased.any (· ∈ st.flows) && st.takesEffect batchID comm_size then
          if st.ideal then st.flows1 else [markerFlow server0]
        else [] := by
    cases erased.any (· ∈ st.flows) with
    | false => exact (append_nil _).symm
    | true => exact flows_multipleIncrementalChanges [markerFlow server0]
  unfold clearFlows
  rw [hends, if_neg Bool.false_ne_true, eraseFound_eq, eraseFound_eq]
  cases hideal : st.ideal with
  | false =>
    have h := hchanged new_flows
    rw [hideal] at h
    exact h
  | true =>
    have h := hchanged st.flows1
    rw [hideal] at h
    exact h

end DragonflyTopology

theorem any_mem_append {flows added : List Flow} (hne : added ≠ []) (others : List Flow) :
    added.any (· ∈ flows ++ added ++ others) = true := by
  obtain ⟨f, hf⟩ := exists_mem_of_ne_nil added hne
  refine any_eq_true.mpr ⟨f, hf, decide_eq_true ?_⟩
  exact mem_append_left others (mem_append_right flows hf)

theorem undone_again_iff {flows added : List Flow} :
    (∀ others : List Flow, (((flows ++ added ++ others).diff added ++
        if added.any (· ∈ flows ++ added ++ others) then added else [] : List Flow) :
          Multiset Flow) = (flows : Multiset Flow) + others) ↔ added = [] := by
  constructor
  · intro h
    by_contra hne
    have hsum := h []
    rw [any_mem_append hne, if_pos rfl, ← coe_add, coe_diff, ← coe_add,
      ← coe_add, coe_nil, add_zero, add_zero, add_tsub_cancel_right,
      add_eq_left, coe_eq_zero] at hsum
    exact hne hsum
  · rintro rfl others
    rw [any_nil, if_neg Bool.false_ne_true, diff_nil, append_nil, append_nil, ← coe_add]

theorem undone_once_iff {flows announced : List Flow} {marker : Flow} :
    ((announced : Multiset Flow) ≤ ((flows ++ [marker] : List Flow) : Multiset Flow) ∧
        ∀ others : List Flow, (((flows ++ [marker] ++ others).diff announced : List Flow) :
          Multiset Flow) = (flows : Multiset Flow) + others) ↔ announced = [marker] := by
  constructor
  · rintro ⟨hle, h⟩
    have hsum := h []
    rw [append_nil, coe_diff, coe_nil, add_zero, tsub_eq_iff_eq_add_of_le hle, ← coe_add] at hsum
    exact Multiset.coe_eq_singleton.mp (add_left_cancel hsum).symm
  · rintro rfl
    refine ⟨?_, fun others => ?_⟩
    · rw [← coe_add]
      exact le_add_left _ _
    · rw [coe_diff, ← coe_add, ← coe_add, add_right_comm, add_tsub_cancel_right]

/-- The same when the flow is added a second time after the erasing. -/
theorem undone_twice_iff {flows announced : List Flow} {marker : Flow} :
    ((announced : Multiset Flow) ≤ ((flows ++ [marker] : List Flow) : Multiset Flow) ∧
        ∀ others : List Flow, (((flows ++ [marker] ++ others).diff announced ++
          if announced.any (· ∈ flows ++ [marker] ++ others) then [marker] else [] : List Flow) :
            Multiset Flow) = (flows : Multiset Flow) + others) ↔
      announced = [marker, marker] ∧ marker ∈ flows := by
  constructor
  · rintro ⟨hle, h⟩
    have hsum := h []
    rw [append_nil, ← coe_add, coe_diff, coe_nil, add_zero] at hsum
    cases hany : announced.any (· ∈ flows ++ [marker]) with
    | false =>
      have hnil : announced = [] := by
        refine eq_nil_iff_forall_not_mem.mpr fun f hf => ?_
        exact any_eq_false.mp hany f hf (decide_eq_true (Multiset.mem_of_le hle hf))
      rw [hany, if_neg Bool.false_ne_true, hnil, coe_nil, tsub_zero, add_zero,
        ← coe_add, add_eq_left] at hsum
      cases (coe_eq_zero _).mp hsum
    | true =>
      rw [hany, if_pos rfl] at hsum
      have htwo : ((flows ++ [marker] : List Flow) : Multiset Flow) + [marker] =
          flows + announced := by
        rw [← hsum, add_right_comm, tsub_add_cancel_of_le hle]
      rw [← coe_add, add_assoc] at htwo
      have hannounced : (announced : Multiset Flow) = ([marker, marker] : List Flow) :=
        (add_left_cancel htwo).symm
      refine ⟨(perm_replicate (n := 2)).mp (Multiset.coe_eq_coe.mp hannounced), ?_⟩
      rw [hannounced, ← coe_add] at hle
      exact singleton_le.mp (le_of_add_le_add_right hle)
  · rintro ⟨rfl, hmem⟩
    have hpair : (([marker, marker] : List Flow) : Multiset Flow) = {marker} + {marker} := rfl
    have hsingle : (([marker] : List Flow) : Multiset Flow) = {marker} := rfl
    constructor
    · rw [hpair, ← coe_add]
      exact add_le_add_left (singleton_le.mpr hmem) _
    · intro others
      have hany : [marker, marker].any (· ∈ flows ++ [marker] ++ others) = true :=
        any_eq_true.mpr ⟨marker, mem_cons_self, decide_eq_true
          (mem_append_left _ (mem_append_left _ hmem))⟩
      obtain ⟨flows', hflows⟩ := Multiset.exists_cons_of_mem (mem_coe.mpr hmem)
      rw [hany, if_pos rfl, ← coe_add, coe_diff, ← coe_add, ← coe_add,
        hflows, hpair, hsingle, ← Multiset.singleton_add]
      have hrest : {marker} + flows' + {marker} + (others : Multiset Flow) =
          flows' + others + ({marker} + {marker}) := by
        abel
      rw [hrest, add_tsub_cancel_right]
      abel

/-- Which additions are undone in the dragonfly. -/
def DragonflyTopology.Undone (server0 : Nat) (st : Topology) (batchID : Int) (comm_size : Nat)
    (later : Int) (announced : List Flow) : Prop :=
  if st.ideal then st.flows1 = [] ∧ (announced : Multiset Flow) ≤ st.flows
  else if (st.window batchID comm_size).any (fun w => w.start = later) then
    announced = [markerFlow server0, markerFlow server0] ∧ markerFlow server0 ∈ st.flows
  else announced = [markerFlow server0]

open DragonflyTopology in
/-- The dragonfly undoes an addition only when there is nothing to add in ideal mode, and
otherwise only that of its own marker. -/
theorem roundTrip_dragonfly {server0 : Nat} (htakes : st.takesEffect batchID comm_size = true)
    (hends : ∀ w ∈ st.window batchID comm_size, w.stop ≤ later) :
    RoundTrip (multipleIncrementalChanges server0 new_flows batchID comm_size)
        (DragonflyTopology.clearFlows server0 new_flows comm_size batchID) new_flows st later ↔
      Undone server0 st batchID comm_size later new_flows := by
  have hpush (added : List Flow) : ∀ w ∈ (st.push added).window batchID comm_size,
      w.stop ≤ later := hends
  have hclear (added others : List Flow) : (clearFlows server0 new_flows comm_size batchID
      { st.push added with now := later, flows := (st.push added).flows ++ others }).flows =
      let erased := if st.ideal then st.flows1 else new_flows
      (st.flows ++ added ++ others).diff erased ++
        if erased.any (· ∈ st.flows ++ added ++ others) &&
            ((st.window batchID comm_size).any (fun w => w.start = later) || st.ideal) then
          if st.ideal then st.flows1 else [markerFlow server0]
        else [] :=
    flows_clearFlows (endsLater_later (hpush added) _)
  unfold RoundTrip Undone
  rw [multipleIncrementalChanges_eq new_flows htakes]
  simp only [hclear]
  show ((new_flows : Multiset Flow) ≤ ((st.flows ++ _ : List Flow) : Multiset Flow) ∧ _) ↔ _
  cases hideal : st.ideal with
  | false =>
    simp only [Bool.false_eq_true, if_false, Bool.or_false]
    cases (st.window batchID comm_size).any fun w => w.start = later with
    | false =>
      simp only [Bool.and_false, Bool.false_eq_true, if_false, append_nil]
      exact undone_once_iff
    | true =>
      simp only [Bool.and_true, if_true]
      exact undone_twice_iff
  | true =>
    simp only [if_true, Bool.or_true, Bool.and_true]
    constructor
    · rintro ⟨hle, h⟩
      have hnil := undone_again_iff.mp h
      rw [hnil, append_nil] at hle
      exact ⟨hnil, hle⟩
    · rintro ⟨hnil, hle⟩
      refine ⟨?_, undone_again_iff.mpr hnil⟩
      rw [hnil, append_nil]
      exact hle

/-- Which additions are undone, in both topologies. -/
theorem roundTrip_iff (server0 : Nat) (htakes : st.takesEffect batchID comm_size = true)
    (hends : ∀ w ∈ st.window batchID comm_size, w.stop ≤ later) :
    (RoundTrip (FattreeTopology.addFlows new_flows batchID comm_size)
        (FattreeTopology.clearFlows new_flows comm_size batchID) new_flows st later ↔
      (st.ideal = true → st.flows1 = [] ∧ (new_flows : Multiset Flow) ≤ st.flows)) ∧
    (RoundTrip (DragonflyTopology.multipleIncrementalChanges server0 new_flows batchID comm_size)
        (DragonflyTopology.clearFlows server0 new_flows comm_size batchID) new_flows st later ↔
      DragonflyTopology.Undone server0 st batchID comm_size later new_flows) :=
  ⟨roundTrip_fattree htakes hends, roundTrip_dragonfly htakes hends⟩

end

/-! ## 6. Instances -/

/-- In ideal mode, with one known flow. -/
def idealTopology : Topology where
  now := 0
  flows := []
  flows1 := [(1, 2)]
  batchCommsizeMap := ∅

/-- At the begin of the only window. -/
def oneWindow : Topology where
  now := 10
  flows := []
  flows1 := []
  batchCommsizeMap := AList.singleton 0 (AList.singleton 8 ⟨10, 20⟩)

theorem roundTrip_iff_oneWindow :
    (RoundTrip (FattreeTopology.addFlows [(1, 2)] 0 8) (FattreeTopology.clearFlows [(1, 2)] 8 0)
        [(1, 2)] oneWindow 20 ↔
      (oneWindow.ideal = true → oneWindow.flows1 = [] ∧
        (([(1, 2)] : List Flow) : Multiset Flow) ≤ oneWindow.flows)) ∧
    (RoundTrip (DragonflyTopology.multipleIncrementalChanges 0 [(1, 2)] 0 8)
        (DragonflyTopology.clearFlows 0 [(1, 2)] 8 0) [(1, 2)] oneWindow 20 ↔
      DragonflyTopology.Undone 0 oneWindow 0 8 20 [(1, 2)]) :=
  roundTrip_iff 0 (by decide) (fun w hw => by
    obtain rfl : (⟨10, 20⟩ : Window) = w := Option.some.inj hw
    exact le_rfl)

/-- The fat tree keeps the known flow for good; the dragonfly does so, too, and with a
window it does not add the announced flow. -/
theorem not_roundTrip :
    ¬RoundTrip (FattreeTopology.addFlows [(1, 2)] 0 8) (FattreeTopology.clearFlows [(1, 2)] 8 0)
      [(1, 2)] idealTopology 20 ∧
    ¬RoundTrip (DragonflyTopology.multipleIncrementalChanges 0 [(1, 2)] 0 8)
      (DragonflyTopology.clearFlows 0 [(1, 2)] 8 0) [(1, 2)] idealTopology 20 ∧
    ¬RoundTrip (DragonflyTopology.multipleIncrementalChanges 0 [(1, 2)] 0 8)
      (DragonflyTopology.clearFlows 0 [(1, 2)] 8 0) [(1, 2)] oneWindow 20 := by
  refine ⟨fun h => ?_, fun h => ?_, fun h => ?_⟩
  · exact absurd (h.2 []) (by decide)
  · exact absurd (h.2 []) (by decide)
  · exact absurd h.1 (by decide)

end MoeJit.ActiveFlows
