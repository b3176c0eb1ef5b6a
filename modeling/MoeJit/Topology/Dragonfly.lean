import MoeJit.Lib.LinkGraph
import Mathlib.Algebra.BigOperators.Intervals
import Mathlib.Tactic.Ring

/-!
# The wiring of the dragonfly

The links that `dragonfly-test-with-MUSE.cpp` installs: from servers to their
switches, within groups, between groups, and for every other pair of switches one
that is down and that a reconfiguration may take up later.

Nodes are numbered in the order of their creation, switches first, and devices as
they are installed; each device has one interface. Of a `LinkInfo` only the
devices are kept, since an `Ipv4` object is that of the node of a device.

`global_wiring`: one link between any two groups, `h` of them at every switch.
-/

namespace MoeJit.Dragonfly

open LinkGraph List Function
open Finset (mem_Ico mem_product sum_congr sum_eq_single)

/-! ## Parameters and links -/

/-- The members `p`, `a`, `h` and `g` of `DragonflyTopology`. -/
structure Params where
  p : Nat
  a : Nat
  h : Nat
  g : Nat

/-- The parameters that `main` derives from `k`. -/
def params (k : Nat) : Params where
  p := k
  a := 2 * k
  h := k
  g := 2 * k * k + 1

namespace Params

variable (P : Params)

def switchCount : Nat := P.g * P.a

/-- The links from switches to servers; the nodes of the servers follow those of
the switches. -/
def serverLinks : List (Nat × Nat) :=
  (List.range P.switchCount).flatMap fun switchIndex =>
    (List.range P.p).map fun serverIndex =>
      (switchIndex, P.switchCount + (switchIndex * P.p + serverIndex))

/-- The links in every group. -/
def groupLinks : List (Nat × Nat) :=
  (List.range P.g).flatMap fun groupIndex =>
    (List.range P.a).flatMap fun switchIndex1 =>
      (List.range' (switchIndex1 + 1) (P.a - (switchIndex1 + 1))).map fun switchIndex2 =>
        (groupIndex * P.a + switchIndex1, groupIndex * P.a + switchIndex2)

/-- The body of the innermost loop between groups: the link it installs, if it
does not go on. -/
def globalLink (groupIndex1 : Nat) (switchIndex1 : Nat) (linkIndex : Nat) :
    Option (Nat × Nat) :=
  let offset := (switchIndex1 * P.h + linkIndex) % (P.g - 1) + 1
  let groupIndex2 := (P.g + groupIndex1 - offset) % P.g
  if groupIndex2 ≥ groupIndex1 then none
  else
    let switchIndex2 := P.a - switchIndex1 - 1
    some (groupIndex1 * P.a + switchIndex1, groupIndex2 * P.a + switchIndex2)

/-- The links between groups. -/
def globalLinks : List (Nat × Nat) :=
  (List.range P.g).flatMap fun groupIndex1 =>
    (List.range P.a).flatMap fun switchIndex1 =>
      (List.range P.h).filterMap fun linkIndex => P.globalLink groupIndex1 switchIndex1 linkIndex

/-- The pairs of switches of the last loop. -/
def switchPairs : List (Nat × Nat) :=
  (List.range P.switchCount).flatMap fun switchIndex1 =>
    (List.range' (switchIndex1 + 1) (P.switchCount - (switchIndex1 + 1))).map fun switchIndex2 =>
      (switchIndex1, switchIndex2)

/-- The switches of a group. -/
def group (i : Nat) : Finset Nat := Finset.Ico (i * P.a) (i * P.a + P.a)

/-- A link joins two groups. -/
def JoinsGroups (i j : Nat) (l : Nat × Nat) : Prop :=
  (l.1 / P.a = i ∧ l.2 / P.a = j) ∨ (l.1 / P.a = j ∧ l.2 / P.a = i)

instance (i j : Nat) : DecidablePred (P.JoinsGroups i j) := fun _ =>
  inferInstanceAs (Decidable (_ ∨ _))

end Params

/-! ## The state of the topology -/

structure LinkInfo where
  device1 : Nat
  device2 : Nat

/-- The same link, seen from its other end. -/
def LinkInfo.reverse (info : LinkInfo) : LinkInfo := ⟨info.device2, info.device1⟩

/-- `DragonflyTopology`, as far as links are concerned, with the devices that
exist, the node of each and whether its interface is up. -/
structure DragonflyTopology where
  deviceCount : Nat := 0
  node : Nat → Nat := fun _ => 0
  isUp : Nat → Bool := fun _ => false
  backgroundLinkMap : Nat → Nat → Option LinkInfo := fun _ _ => none
  linkDeviceState : Nat → Nat → Bool := fun _ _ => false
  groupLinkNumberMap : Nat → Nat → Int := fun _ _ => 0
  switchID2Index : Nat → Nat := fun _ => 0

/-- An entry of a map of maps. -/
def set2 {α β : Type*} [DecidableEq α] (m : α → α → β) (x y : α) (v : β) : α → α → β :=
  Function.update m x (Function.update (m x) y v)

theorem set2_apply {α β : Type*} [DecidableEq α] (m : α → α → β) (x y : α) (v : β) (x' y' : α) :
    set2 m x y v x' y' = if x' = x ∧ y' = y then v else m x' y' := by
  unfold set2
  by_cases hx : x' = x
  · subst hx
    rw [update_self, update_apply]
    simp
  · rw [update_of_ne hx, if_neg fun h => hx h.1]

namespace DragonflyTopology

/-- `Install`, `Assign` and the entries for the new link; a link that is not
wanted yet is set down at once. -/
def install (up : Bool) (st : DragonflyTopology) (l : Nat × Nat) : DragonflyTopology :=
  let device1 := st.deviceCount
  let device2 := st.deviceCount + 1
  { st with
    deviceCount := st.deviceCount + 2
    node := Function.update (Function.update st.node device1 l.1) device2 l.2
    isUp := Function.update (Function.update st.isUp device1 up) device2 up
    backgroundLinkMap := set2 (set2 st.backgroundLinkMap l.1 l.2 (some ⟨device1, device2⟩))
      l.2 l.1 (some ⟨device2, device1⟩)
    linkDeviceState := set2 (set2 st.linkDeviceState device1 device2 up) device2 device1 up }

/-- The body of the last loop: a pair of switches without a link gets one that is
down. -/
def installOther (st : DragonflyTopology) (l : Nat × Nat) : DragonflyTopology :=
  if (st.backgroundLinkMap l.1 l.2).isSome && (st.backgroundLinkMap l.2 l.1).isSome then st
  else st.install false l

end DragonflyTopology

/-- The topology that `main` builds. -/
def wiring (P : Params) : DragonflyTopology :=
  let st := P.serverLinks.foldl (DragonflyTopology.install true) {}
  let st := P.groupLinks.foldl (DragonflyTopology.install true) st
  let st := P.globalLinks.foldl (DragonflyTopology.install true) st
  let st := P.switchPairs.foldl DragonflyTopology.installOther st
  { st with
    groupLinkNumberMap := fun i j => if i < P.g ∧ j < P.g ∧ i ≠ j then 1 else 0
    switchID2Index := fun id => if id < P.switchCount then id else 0 }

variable {up : Bool} {st : DragonflyTopology} {l : Nat × Nat} {s t : Nat}

namespace DragonflyTopology

/-- A link whose two interfaces are up. -/
def linkUp (st : DragonflyTopology) (s t : Nat) : Bool :=
  match st.backgroundLinkMap s t with
  | none => false
  | some info => st.isUp info.device1 && st.isUp info.device2

/-- What holds of the links at all times: each has an entry for both directions
and devices of its own at its two ends, and `linkDeviceState` is the state of both
interfaces. -/
structure LinksOk (st : DragonflyTopology) : Prop where
  reverse : ∀ s t info, st.backgroundLinkMap s t = some info →
    st.backgroundLinkMap t s = some info.reverse
  device_lt : ∀ s t info, st.backgroundLinkMap s t = some info → info.device1 < st.deviceCount
  node_eq : ∀ s t info, st.backgroundLinkMap s t = some info → st.node info.device1 = s
  unique : ∀ s t s' t' info info', st.backgroundLinkMap s t = some info →
    st.backgroundLinkMap s' t' = some info' → info.device1 = info'.device1 → s = s' ∧ t = t'
  state : ∀ s t info, st.backgroundLinkMap s t = some info →
    st.linkDeviceState info.device1 info.device2 = st.isUp info.device1 ∧
    st.linkDeviceState info.device1 info.device2 = st.isUp info.device2

theorem lookup_install {info : LinkInfo} (h : (st.install up l).backgroundLinkMap s t = some info) :
    (s = l.2 ∧ t = l.1 ∧ info = ⟨st.deviceCount + 1, st.deviceCount⟩) ∨
    (s = l.1 ∧ t = l.2 ∧ ¬ (s = l.2 ∧ t = l.1) ∧ info = ⟨st.deviceCount, st.deviceCount + 1⟩) ∨
    (¬ (s = l.2 ∧ t = l.1) ∧ ¬ (s = l.1 ∧ t = l.2) ∧ st.backgroundLinkMap s t = some info) := by
  simp only [install, set2_apply] at h
  split at h
  · next hrev => exact .inl ⟨hrev.1, hrev.2, (Option.some.inj h).symm⟩
  · next hrev =>
    split at h
    · next hself => exact .inr (.inl ⟨hself.1, hself.2, hrev, (Option.some.inj h).symm⟩)
    · next hself => exact .inr (.inr ⟨hrev, hself, h⟩)

theorem linksOk_install (h : LinksOk st) (hne : l.1 ≠ l.2) : LinksOk (st.install up l) where
  reverse s t info hinfo := by
    have hback : ∀ s t, (st.install up l).backgroundLinkMap s t =
        if s = l.2 ∧ t = l.1 then some ⟨st.deviceCount + 1, st.deviceCount⟩
        else if s = l.1 ∧ t = l.2 then some ⟨st.deviceCount, st.deviceCount + 1⟩
        else st.backgroundLinkMap s t := fun s t => by simp only [install, set2_apply]
    rw [hback]
    rcases lookup_install hinfo with ⟨rfl, rfl, rfl⟩ | ⟨rfl, rfl, -, rfl⟩ | ⟨h₁, h₂, hold⟩
    · rw [if_neg fun hc => hne hc.1, if_pos ⟨rfl, rfl⟩]
      rfl
    · rw [if_pos ⟨rfl, rfl⟩]
      rfl
    · rw [if_neg fun hc => h₂ hc.symm, if_neg fun hc => h₁ hc.symm]
      exact h.reverse s t info hold
  device_lt s t info hinfo := by
    show info.device1 < st.deviceCount + 2
    rcases lookup_install hinfo with ⟨-, -, rfl⟩ | ⟨-, -, -, rfl⟩ | ⟨-, -, hold⟩
    · exact Nat.lt_succ_self _
    · exact Nat.lt_add_of_pos_right (by decide)
    · exact Nat.lt_add_right 2 (h.device_lt s t info hold)
  node_eq s t info hinfo := by
    simp only [install]
    rcases lookup_install hinfo with ⟨rfl, -, rfl⟩ | ⟨rfl, -, -, rfl⟩ | ⟨-, -, hold⟩
    · exact update_self _ _ _
    · rw [update_of_ne (ne_of_lt (Nat.lt_succ_self _)), update_self]
    · have hlt := h.device_lt s t info hold
      rw [update_of_ne (ne_of_lt (Nat.lt_succ_of_lt hlt)),
        update_of_ne (ne_of_lt hlt), h.node_eq s t info hold]
  unique s t s' t' info info' hinfo hinfo' heq := by
    rcases lookup_install hinfo with ⟨rfl, rfl, rfl⟩ | ⟨rfl, rfl, -, rfl⟩ | ⟨-, -, hold⟩ <;>
      rcases lookup_install hinfo' with ⟨rfl, rfl, rfl⟩ | ⟨rfl, rfl, -, rfl⟩ | ⟨-, -, hold'⟩
    · exact ⟨rfl, rfl⟩
    · exact absurd heq (Nat.succ_ne_self _)
    · have hlt := h.device_lt _ _ _ hold'
      simp only at heq
      omega
    · exact absurd heq.symm (Nat.succ_ne_self _)
    · exact ⟨rfl, rfl⟩
    · have hlt := h.device_lt _ _ _ hold'
      simp only at heq
      omega
    · have hlt := h.device_lt _ _ _ hold
      simp only at heq
      omega
    · have hlt := h.device_lt _ _ _ hold
      simp only at heq
      omega
    · exact h.unique _ _ _ _ _ _ hold hold' heq
  state s t info hinfo := by
    simp only [install, set2_apply, update_apply]
    rcases lookup_install hinfo with ⟨-, -, rfl⟩ | ⟨-, -, -, rfl⟩ | ⟨-, -, hold⟩
    · simp
    · simp
    · have hlt := h.device_lt s t info hold
      have hlt' := h.device_lt t s _ (h.reverse s t info hold)
      simp only [LinkInfo.reverse] at hlt'
      have h₁ := h.state s t info hold
      rw [if_neg (by omega), if_neg (by omega), if_neg (by omega), if_neg (by omega),
        if_neg (by omega), if_neg (by omega)]
      exact h₁

theorem linkUp_of_lookup {info : LinkInfo} (h : st.backgroundLinkMap s t = some info) :
    st.linkUp s t = (st.isUp info.device1 && st.isUp info.device2) := by
  unfold linkUp
  rw [h]

theorem linkUp_of_none (h : st.backgroundLinkMap s t = none) : st.linkUp s t = false := by
  unfold linkUp
  rw [h]

theorem LinksOk.none_iff (h : LinksOk st) :
    st.backgroundLinkMap s t = none ↔ st.backgroundLinkMap t s = none := by
  have hback : ∀ s t, st.backgroundLinkMap s t = none → st.backgroundLinkMap t s = none := by
    intro s t hnone
    cases hinfo : st.backgroundLinkMap t s with
    | none => rfl
    | some info =>
      rw [h.reverse t s info hinfo] at hnone
      cases hnone
  exact ⟨hback s t, hback t s⟩

theorem LinksOk.linkUp_symm (h : LinksOk st) (s t : Nat) : st.linkUp s t = st.linkUp t s := by
  cases hinfo : st.backgroundLinkMap s t with
  | none => rw [linkUp_of_none hinfo, linkUp_of_none (h.none_iff.mp hinfo)]
  | some info =>
    rw [linkUp_of_lookup hinfo, linkUp_of_lookup (h.reverse s t info hinfo), Bool.and_comm]
    rfl

theorem linkUp_install (h : LinksOk st) (l : Nat × Nat) :
    (st.install up l).linkUp = setLink st.linkUp l.1 l.2 up := by
  funext s t
  have hself : (st.install up l).isUp st.deviceCount = up ∧
      (st.install up l).isUp (st.deviceCount + 1) = up := by
    simp [install]
  by_cases hjoin : (s = l.1 ∧ t = l.2) ∨ (s = l.2 ∧ t = l.1)
  · rw [setLink, if_pos hjoin]
    have hinfo : (st.install up l).backgroundLinkMap s t =
          some ⟨st.deviceCount + 1, st.deviceCount⟩ ∨
        (st.install up l).backgroundLinkMap s t = some ⟨st.deviceCount, st.deviceCount + 1⟩ := by
      simp only [install, set2_apply]
      split
      · exact .inl rfl
      · next hrev => rw [if_pos (hjoin.resolve_right hrev)]; exact .inr rfl
    rcases hinfo with hinfo | hinfo
    all_goals rw [linkUp_of_lookup hinfo, hself.1, hself.2, Bool.and_self]
  · rw [setLink_of_ne hjoin]
    rw [not_or] at hjoin
    have hsame : (st.install up l).backgroundLinkMap s t = st.backgroundLinkMap s t := by
      simp only [install, set2_apply, hjoin.1, hjoin.2, if_false]
    cases hinfo : st.backgroundLinkMap s t with
    | none => rw [linkUp_of_none hinfo, linkUp_of_none (hsame.trans hinfo)]
    | some info =>
      have hlt := h.device_lt s t info hinfo
      have hlt' : info.device2 < st.deviceCount := h.device_lt t s _ (h.reverse s t info hinfo)
      have hup : ∀ d, d < st.deviceCount → (st.install up l).isUp d = st.isUp d := by
        intro d hd
        simp only [install]
        rw [update_of_ne (by omega), update_of_ne (by omega)]
      rw [linkUp_of_lookup hinfo, linkUp_of_lookup (hsame.trans hinfo), hup _ hlt, hup _ hlt']

/-! ## The loops of the wiring -/

theorem foldl_install {ls : List (Nat × Nat)} (hne : ∀ l ∈ ls, l.1 ≠ l.2) (h : LinksOk st) :
    LinksOk (ls.foldl (install true) st) ∧
    ∀ s t, (ls.foldl (install true) st).linkUp s t = true ↔
      st.linkUp s t = true ∨ (s, t) ∈ ls ∨ (t, s) ∈ ls := by
  induction ls generalizing st with
  | nil => exact ⟨h, fun s t => by simp⟩
  | cons l ls ih =>
    have hfirst : LinksOk (st.install true l) := linksOk_install h (hne l mem_cons_self)
    obtain ⟨hok, hup⟩ := ih (fun l' hl' => hne l' (mem_cons_of_mem l hl')) hfirst
    refine ⟨hok, fun s t => ?_⟩
    rw [foldl_cons, hup, linkUp_install h, mem_cons, mem_cons, Prod.ext_iff, Prod.ext_iff]
    unfold setLink
    split
    · next hjoin => simp only; tauto
    · next hjoin => simp only; tauto

theorem linksOk_installOther (h : LinksOk st) (hne : l.1 ≠ l.2) :
    LinksOk (st.installOther l) ∧ (st.installOther l).linkUp = st.linkUp ∧
      ((st.installOther l).backgroundLinkMap l.1 l.2).isSome = true ∧
      ∀ s t, (st.backgroundLinkMap s t).isSome = true →
        ((st.installOther l).backgroundLinkMap s t).isSome = true := by
  unfold installOther
  split
  · next hboth => exact ⟨h, rfl, (Bool.and_eq_true_iff.mp hboth).1, fun _ _ hs => hs⟩
  · next hmissing =>
    have hnone : st.backgroundLinkMap l.1 l.2 = none := by
      cases hinfo : st.backgroundLinkMap l.1 l.2 with
      | none => rfl
      | some info => simp [hinfo, h.reverse _ _ info hinfo] at hmissing
    refine ⟨linksOk_install h hne, ?_, ?_, fun s t hs => ?_⟩
    · rw [linkUp_install h]
      funext s t
      unfold setLink
      split
      · next hjoin =>
        rcases hjoin with ⟨rfl, rfl⟩ | ⟨rfl, rfl⟩
        · exact (linkUp_of_none hnone).symm
        · exact (linkUp_of_none (h.none_iff.mp hnone)).symm
      · rfl
    · simp only [install, set2_apply]
      split <;> simp
    · simp only [install, set2_apply]
      split
      · rfl
      · split
        · rfl
        · exact hs

theorem foldl_installOther {ls : List (Nat × Nat)} (hne : ∀ l ∈ ls, l.1 ≠ l.2) (h : LinksOk st) :
    LinksOk (ls.foldl installOther st) ∧ (ls.foldl installOther st).linkUp = st.linkUp ∧
    (∀ l ∈ ls, ((ls.foldl installOther st).backgroundLinkMap l.1 l.2).isSome = true) ∧
    ∀ s t, (st.backgroundLinkMap s t).isSome = true →
      ((ls.foldl installOther st).backgroundLinkMap s t).isSome = true := by
  induction ls generalizing st with
  | nil => exact ⟨h, rfl, fun _ hl => absurd hl not_mem_nil, fun _ _ hs => hs⟩
  | cons l ls ih =>
    obtain ⟨hok, hup, hself, hkeep⟩ := linksOk_installOther h (hne l mem_cons_self)
    obtain ⟨hok', hup', hall, hkeep'⟩ := ih (fun l' hl' => hne l' (mem_cons_of_mem l hl')) hok
    refine ⟨hok', hup'.trans hup, fun l' hl' => ?_, fun s t hs => hkeep' s t (hkeep s t hs)⟩
    rcases mem_cons.mp hl' with rfl | hl'
    · exact hkeep' _ _ hself
    · exact hall l' hl'

end DragonflyTopology

/-! ## The links between groups -/

theorem flatMap_range_mul {α : Type*} (f : Nat → Option α) (a h : Nat) :
    ((List.range a).flatMap fun s => (List.range h).filterMap fun l => f (s * h + l)) =
      (List.range (a * h)).filterMap f := by
  induction a with
  | zero => simp
  | succ a ih =>
    rw [range_succ, flatMap_append, ih, Nat.succ_mul, range_add,
      filterMap_append, filterMap_map, flatMap_singleton]
    rfl

namespace Params

variable {P : Params}

/-- The link that group `i` installs for its offset `j + 1`. -/
def linkAt (P : Params) (i j : Nat) : Nat × Nat :=
  (i * P.a + j / P.h, (i - 1 - j) * P.a + (P.a - j / P.h - 1))

section

variable (hh : 0 < P.h) (hg : P.g = P.a * P.h + 1)
include hh hg

/-- With `g = a * h + 1` an offset is never reduced, and reaches a smaller group if
it is at most the group itself. -/
theorem globalLink_eq {i l : Nat} (hi : i < P.g) (hs : s < P.a) (hl : l < P.h) :
    P.globalLink i s l = if s * P.h + l < i then some (P.linkAt i (s * P.h + l)) else none := by
  have hdiv : (s * P.h + l) / P.h = s := by
    rw [mul_comm, Nat.mul_add_div hh, Nat.div_eq_of_lt hl, add_zero]
  have hlt : s * P.h + l < P.a * P.h := calc s * P.h + l < s * P.h + P.h := Nat.add_lt_add_left hl _
      _ = (s + 1) * P.h := (Nat.succ_mul s P.h).symm
      _ ≤ P.a * P.h := Nat.mul_le_mul_right P.h hs
  unfold globalLink linkAt
  simp only [hdiv]
  generalize s * P.h + l = j at hlt
  rw [show P.g - 1 = P.a * P.h by omega, Nat.mod_eq_of_lt hlt]
  by_cases hj : j < i
  · have hgroup : (P.g + i - (j + 1)) % P.g = i - 1 - j := by
      rw [show P.g + i - (j + 1) = P.g + (i - 1 - j) by omega, Nat.add_mod_left,
        Nat.mod_eq_of_lt (by omega)]
    rw [hgroup, if_pos hj, if_neg (by omega)]
  · rw [Nat.mod_eq_of_lt (by omega), if_neg hj, if_pos (by omega)]

theorem globalLinks_eq :
    P.globalLinks = (List.range P.g).flatMap fun i => (List.range i).map (P.linkAt i) := by
  refine flatMap_congr fun i hi => ?_
  rw [mem_range] at hi
  have hbody : ((List.range P.a).flatMap fun s =>
      (List.range P.h).filterMap fun l => P.globalLink i s l) =
      (List.range P.a).flatMap fun s => (List.range P.h).filterMap fun l =>
        (fun j => if j < i then some (P.linkAt i j) else none) (s * P.h + l) :=
    flatMap_congr fun s hs => filterMap_congr fun l hl =>
      globalLink_eq hh hg hi (mem_range.mp hs) (mem_range.mp hl)
  have hrest : ∀ j ∈ (List.range (P.a * P.h - i)).map (i + ·),
      (if j < i then some (P.linkAt i j) else none) = none := by
    intro j hj
    obtain ⟨j', -, rfl⟩ := mem_map.mp hj
    exact if_neg (by omega)
  rw [hbody, flatMap_range_mul (fun j => if j < i then some (P.linkAt i j) else none),
    show P.a * P.h = i + (P.a * P.h - i) by omega, range_add, filterMap_append,
    filterMap_eq_nil_iff.mpr hrest, append_nil, ← filterMap_eq_map]
  exact filterMap_congr fun j hj => if_pos (mem_range.mp hj)

theorem mem_globalLinks : l ∈ P.globalLinks ↔ ∃ i j, i < P.g ∧ j < i ∧ l = P.linkAt i j := by
  rw [globalLinks_eq hh hg]
  simp only [mem_flatMap, mem_range, mem_map]
  constructor
  · rintro ⟨i, hi, j, hj, rfl⟩
    exact ⟨i, j, hi, hj, rfl⟩
  · rintro ⟨i, j, hi, hj, rfl⟩
    exact ⟨i, hi, j, hj, rfl⟩

end

/-- The groups and the switches that a link joins. -/
theorem linkAt_spec (hg : P.g = P.a * P.h + 1) {i j : Nat} (hi : i < P.g) (hj : j < i) :
    (P.linkAt i j).1 / P.a = i ∧ (P.linkAt i j).1 % P.a = j / P.h ∧
    (P.linkAt i j).2 / P.a = i - 1 - j ∧ (P.linkAt i j).2 % P.a = P.a - j / P.h - 1 := by
  have hswitch : j / P.h < P.a := Nat.div_lt_of_lt_mul (by rw [mul_comm]; omega)
  have hsplit : ∀ x y, y < P.a → (x * P.a + y) / P.a = x ∧ (x * P.a + y) % P.a = y := by
    intro x y hy
    rw [mul_comm]
    exact ⟨by rw [Nat.mul_add_div (by omega), Nat.div_eq_of_lt hy, add_zero],
      by rw [Nat.mul_add_mod, Nat.mod_eq_of_lt hy]⟩
  obtain ⟨h₁, h₂⟩ := hsplit i _ hswitch
  obtain ⟨h₃, h₄⟩ := hsplit (i - 1 - j) (P.a - j / P.h - 1) (by omega)
  exact ⟨h₁, h₂, h₃, h₄⟩

theorem countP_globalLinks (hh : 0 < P.h) (hg : P.g = P.a * P.h + 1) (q : Nat × Nat → Bool) :
    P.globalLinks.countP q =
      ∑ i ∈ Finset.range P.g, ∑ j ∈ Finset.range i, (q (P.linkAt i j)).toNat := by
  have hrange : ∀ (n : Nat) (f : Nat → Nat), ((List.range n).map f).sum =
      ∑ i ∈ Finset.range n, f i := by
    intro n f
    induction n with
    | zero => rfl
    | succ n ih => rw [range_succ, map_append, sum_append, ih,
        Finset.sum_range_succ, map_singleton, sum_singleton]
  have hcount : ∀ l : List (Nat × Nat), l.countP q = (l.map fun x => (q x).toNat).sum := by
    intro l
    induction l with
    | nil => rfl
    | cons x l ih =>
      rw [countP_cons, map_cons, sum_cons, ih, add_comm]
      cases q x <;> rfl
  rw [globalLinks_eq hh hg, countP_flatMap, hrange]
  refine sum_congr rfl fun i _ => ?_
  show ((List.range i).map (P.linkAt i)).countP q = _
  rw [hcount, map_map, hrange]
  rfl

theorem countP_joinsGroups (hh : 0 < P.h) (hg : P.g = P.a * P.h + 1) {i j : Nat} (hi : i < P.g)
    (hj : j < P.g) (hne : i ≠ j) : P.globalLinks.countP (fun l => P.JoinsGroups i j l) = 1 := by
  -- it is the one that the larger group installs
  have hjoins : ∀ i' j', i' < P.g → j' < i' → (P.JoinsGroups i j (P.linkAt i' j') ↔
      i' = max i j ∧ j' = max i j - 1 - min i j) := by
    intro i' j' hi' hj'
    obtain ⟨h₁, -, h₂, -⟩ := linkAt_spec hg hi' hj'
    unfold JoinsGroups
    rw [h₁, h₂]
    omega
  rw [countP_globalLinks hh hg, sum_eq_single (max i j), sum_eq_single (max i j - 1 - min i j)]
  · have hself := (hjoins (max i j) (max i j - 1 - min i j) (by omega) (by omega)).mpr ⟨rfl, rfl⟩
    simp [hself]
  · intro j' hj' hne'
    rw [Finset.mem_range] at hj'
    have hnot := mt (hjoins (max i j) j' (by omega) hj').mp fun h => hne' h.2
    simp [hnot]
  · intro hnot
    exact absurd (Finset.mem_range.mpr (by omega)) hnot
  · intro i' hi' hne'
    rw [Finset.mem_range] at hi'
    refine Finset.sum_eq_zero fun j' hj' => ?_
    rw [Finset.mem_range] at hj'
    have hnot := mt (hjoins i' j' hi' hj').mp fun h => hne' h.1
    simp [hnot]
  · intro hnot
    exact absurd (Finset.mem_range.mpr (by omega)) hnot

theorem eq_iff_div_mod {a : Nat} : t = s ↔ t / a = s / a ∧ t % a = s % a := by
  constructor
  · rintro rfl
    exact ⟨rfl, rfl⟩
  · rintro ⟨hdiv, hmod⟩
    rw [← Nat.div_add_mod t a, ← Nat.div_add_mod s a, hdiv, hmod]

/-- Whether the `j`th link of group `i` ends at switch `y` of group `x`: as one of the
links that `x` installs or as the one that it gets from `i`. -/
theorem ends_linkAt (hg : P.g = P.a * P.h + 1) {i j : Nat} (hi : i < P.g) (hj : j < i) :
    (decide ((P.linkAt i j).1 = s ∨ (P.linkAt i j).2 = s)).toNat =
      (if i = s / P.a then if j / P.h = s % P.a then 1 else 0 else 0) +
      if j = i - 1 - s / P.a then
        if s / P.a < i ∧ P.a - j / P.h - 1 = s % P.a then 1 else 0 else 0 := by
  obtain ⟨h₁, h₂, h₃, h₄⟩ := linkAt_spec hg hi hj
  have heq : ∀ t, t = s ↔ t / P.a = s / P.a ∧ t % P.a = s % P.a := fun t => eq_iff_div_mod
  generalize s / P.a = x at heq ⊢
  generalize s % P.a = y at heq ⊢
  simp only [heq, h₁, h₂, h₃, h₄]
  rcases eq_or_ne i x with rfl | hne
  · have hno : ¬ (i - 1 - j = i ∧ P.a - j / P.h - 1 = y) := fun h => by omega
    simp only [true_and, hno, or_false, lt_irrefl, false_and, if_true, if_false, ite_self, add_zero]
    by_cases hy' : j / P.h = y <;> simp [hy']
  · have hiff : (i - 1 - j = x ∧ P.a - j / P.h - 1 = y) ↔
        j = i - 1 - x ∧ x < i ∧ P.a - j / P.h - 1 = y := by omega
    simp only [hne, false_and, false_or, if_false, zero_add, hiff, ← ite_and]
    by_cases hc : j = i - 1 - x ∧ x < i ∧ P.a - j / P.h - 1 = y
    · rw [decide_eq_true hc, if_pos hc]
      rfl
    · rw [decide_eq_false hc, if_neg hc]
      rfl

theorem sum_installed {g h x y : Nat} (hx : x < g) : ∑ i ∈ Finset.range g, ∑ j ∈ Finset.range i,
      (if i = x then if j / h = y then 1 else 0 else 0) =
      ∑ j ∈ Finset.range x, if j / h = y then 1 else 0 := by
  rw [sum_eq_single x]
  · simp
  · intro i _ hne
    simp [hne]
  · intro hnot
    exact absurd (Finset.mem_range.mpr hx) hnot

theorem sum_received {a g h x y : Nat} (hg : g = a * h + 1) (hx : x < g) :
    ∑ i ∈ Finset.range g, ∑ j ∈ Finset.range i,
      (if j = i - 1 - x then if x < i ∧ a - j / h - 1 = y then 1 else 0 else 0) =
      ∑ j ∈ Finset.range (a * h - x), if (x + j) / h = y then 1 else 0 := by
  have hone : ∀ i, ∑ j ∈ Finset.range i,
      (if j = i - 1 - x then if x < i ∧ a - j / h - 1 = y then 1 else 0 else 0) =
      if x < i ∧ a - (i - 1 - x) / h - 1 = y then 1 else 0 := by
    intro i
    rcases eq_zero_or_pos i with rfl | hi
    · simp
    · rw [Finset.sum_ite_eq' (Finset.range i) (i - 1 - x), if_pos (Finset.mem_range.mpr (by omega))]
  have hsmall : ∀ i ∈ Finset.range (x + 1),
      (if x < i ∧ a - (i - 1 - x) / h - 1 = y then 1 else 0) = 0 := fun i hi => by
    rw [Finset.mem_range] at hi
    exact if_neg fun h => by omega
  rw [sum_congr rfl fun i _ => hone i, show g = x + 1 + (a * h - x) by omega,
    Finset.sum_range_add, Finset.sum_eq_zero hsmall, zero_add, ← Finset.sum_range_reflect]
  refine sum_congr rfl fun j hj => ?_
  rw [Finset.mem_range] at hj
  have hmirror := Nat.mul_sub_div (a * h - x - 1 - j) h a (by rw [mul_comm h a]; omega)
  rw [mul_comm h a, show a * h - (a * h - x - 1 - j + 1) = x + j by omega] at hmirror
  rw [show x + 1 + (a * h - x - 1 - j) - 1 - x = a * h - x - 1 - j by omega, hmirror]
  refine if_congr ?_ rfl rfl
  omega

theorem sum_ports {a h y : Nat} (hh : 0 < h) (hy : y < a) :
    ∑ j ∈ Finset.range (a * h), (if j / h = y then 1 else 0) = h := by
  have hfilter : (Finset.range (a * h)).filter (fun j => j / h = y) =
      Finset.Ico (y * h) (y * h + h) := by
    ext j
    have hle : y * h + h ≤ a * h := by
      rw [← Nat.succ_mul]
      exact Nat.mul_le_mul_right h hy
    rw [Finset.mem_filter, Finset.mem_range, mem_Ico, Nat.div_eq_iff hh]
    omega
  rw [← Finset.card_filter, hfilter, Nat.card_Ico, Nat.add_sub_cancel_left]

/-- `h` links at every switch: with the offsets up to its group it links to
smaller groups, and with the complements of the others larger groups link to it. -/
theorem countP_switch (hh : 0 < P.h) (hg : P.g = P.a * P.h + 1) (hs : s < P.switchCount) :
    P.globalLinks.countP (fun l => l.1 = s ∨ l.2 = s) = P.h := by
  have ha : 0 < P.a := pos_of_ne_zero fun h => by simp [switchCount, h] at hs
  have hx : s / P.a < P.g := Nat.div_lt_of_lt_mul (by rwa [mul_comm])
  have hterm : ∀ i ∈ Finset.range P.g, ∀ j ∈ Finset.range i, _ := fun i hi j hj =>
    ends_linkAt (s := s) hg (Finset.mem_range.mp hi) (Finset.mem_range.mp hj)
  rw [countP_globalLinks hh hg, sum_congr rfl fun i hi => sum_congr rfl (hterm i hi)]
  simp only [Finset.sum_add_distrib]
  rw [sum_installed hx, sum_received hg hx]
  -- together they have all numbers
  have hsplit := Finset.sum_range_add (fun j => if j / P.h = s % P.a then 1 else 0) (s / P.a)
    (P.a * P.h - s / P.a)
  rw [Nat.add_sub_cancel' (by omega), sum_ports hh (Nat.mod_lt s ha)] at hsplit
  exact hsplit.symm

theorem mem_group (ha : 0 < P.a) {i : Nat} : s ∈ P.group i ↔ s / P.a = i := by
  rw [group, mem_Ico, Nat.div_eq_iff ha]
  omega

end Params

/-! ## The wired topology -/

section

variable {P : Params}

open DragonflyTopology

theorem linksOk_empty : LinksOk {} where
  reverse _ _ _ h := nomatch h
  device_lt _ _ _ h := nomatch h
  node_eq _ _ _ h := nomatch h
  unique _ _ _ _ _ _ h := nomatch h
  state _ _ _ h := nomatch h

section

variable (hh : 0 < P.h) (hg : P.g = P.a * P.h + 1)
include hh hg

theorem links_ne : (∀ l ∈ P.serverLinks, l.1 < P.switchCount ∧ P.switchCount ≤ l.2) ∧
    (∀ l ∈ P.groupLinks, l.1 < l.2 ∧ l.1 / P.a = l.2 / P.a) ∧
    (∀ l ∈ P.globalLinks, l.1 / P.a ≠ l.2 / P.a) ∧ ∀ l ∈ P.switchPairs, l.1 < l.2 := by
  refine ⟨fun l hl => ?_, fun l hl => ?_, fun l hl => ?_, fun l hl => ?_⟩
  · simp only [Params.serverLinks, mem_flatMap, mem_range, mem_map] at hl
    obtain ⟨s, hs, v, -, rfl⟩ := hl
    exact ⟨hs, Nat.le_add_right _ _⟩
  · simp only [Params.groupLinks, mem_flatMap, mem_range, mem_map, mem_range'_1] at hl
    obtain ⟨i, -, s, hs, t, ht, rfl⟩ := hl
    have hdiv : ∀ x, x < P.a → (i * P.a + x) / P.a = i := fun x hx => by
      rw [Nat.mul_comm, Nat.mul_add_div (by omega), Nat.div_eq_of_lt hx, Nat.add_zero]
    exact ⟨by simp only; omega, by rw [hdiv s hs, hdiv t (by omega)]⟩
  · obtain ⟨i, j, hi, hj, rfl⟩ := (Params.mem_globalLinks hh hg).mp hl
    obtain ⟨h₁, -, h₂, -⟩ := Params.linkAt_spec hg hi hj
    omega
  · simp only [Params.switchPairs, mem_flatMap, mem_range, mem_map, mem_range'_1] at hl
    obtain ⟨s, -, t, ht, rfl⟩ := hl
    exact ht.1

/-- After the wiring every two switches have a link, and those between groups
that are up are the links between groups. -/
theorem wiring_spec : LinksOk (wiring P) ∧ (∀ s t, s < P.switchCount → t < P.switchCount → s ≠ t →
      ((wiring P).backgroundLinkMap s t).isSome = true) ∧
    ∀ s t, s < P.switchCount → t < P.switchCount → s / P.a ≠ t / P.a →
      ((wiring P).linkUp s t = true ↔ (s, t) ∈ P.globalLinks ∨ (t, s) ∈ P.globalLinks) := by
  obtain ⟨hserver, hgroup, hglobal, hpairs⟩ := links_ne hh hg
  obtain ⟨hok₁, hup₁⟩ := foldl_install
    (fun l hl => ne_of_lt ((hserver l hl).1.trans_le (hserver l hl).2)) linksOk_empty
  obtain ⟨hok₂, hup₂⟩ := foldl_install (fun l hl => ne_of_lt (hgroup l hl).1) hok₁
  obtain ⟨hok₃, hup₃⟩ := foldl_install (fun l hl heq => hglobal l hl (congrArg (· / P.a) heq)) hok₂
  obtain ⟨hok₄, hup₄, hall, -⟩ := foldl_installOther (fun l hl => ne_of_lt (hpairs l hl)) hok₃
  have hok : LinksOk (wiring P) :=
    ⟨hok₄.reverse, hok₄.device_lt, hok₄.node_eq, hok₄.unique, hok₄.state⟩
  refine ⟨hok, fun s t hs ht hne => ?_, fun s t hs ht hne => ?_⟩
  · have hlinked : ∀ s t, s < t → t < P.switchCount →
        ((wiring P).backgroundLinkMap s t).isSome = true := fun s t hlt ht => by
      refine hall (s, t) ?_
      simp only [Params.switchPairs, mem_flatMap, mem_range, mem_map, mem_range'_1]
      exact ⟨s, by omega, t, by omega, rfl⟩
    rcases Nat.lt_or_gt_of_ne hne with hlt | hgt
    · exact hlinked s t hlt ht
    · obtain ⟨info, hinfo⟩ := Option.isSome_iff_exists.mp (hlinked t s hgt hs)
      rw [hok.reverse t s info hinfo]
      rfl
  · have hserver' : ∀ s t, s < P.switchCount → t < P.switchCount → (s, t) ∉ P.serverLinks :=
      fun s t _ ht hmem => absurd ht (not_lt.mpr (hserver _ hmem).2)
    have hgroup' : ∀ s t, s / P.a ≠ t / P.a → (s, t) ∉ P.groupLinks :=
      fun s t hne hmem => hne (hgroup _ hmem).2
    have hup : (wiring P).linkUp = _ := hup₄
    rw [hup, hup₃, hup₂, hup₁]
    simp only [hserver' s t hs ht, hserver' t s ht hs, hgroup' s t hne, hgroup' t s hne.symm,
      or_false]
    exact or_iff_right (by simp [linkUp])

theorem between_wiring {i j : Nat} (hi : i < P.g) (hj : j < P.g) (hne : i ≠ j) :
    between (wiring P).linkUp (P.group i) (P.group j) = 1 := by
  obtain ⟨hok, -, hup⟩ := wiring_spec hh hg
  have hlarger : ∀ {i j}, i < P.g → j < i →
      between (wiring P).linkUp (P.group i) (P.group j) = 1 := by
    intro i j hi hj
    have ha : 0 < P.a := by
      refine pos_of_ne_zero fun h => ?_
      rw [h, Nat.zero_mul] at hg
      omega
    have hlt : ∀ s i, i < P.g → s / P.a = i → s < P.switchCount := fun s i hi hs =>
      (Nat.div_lt_iff_lt_mul ha).mp (hs ▸ hi)
    have hspec := Params.linkAt_spec (P := P) hg hi (show i - 1 - j < i by omega)
    have hiff : ∀ p ∈ P.group i ×ˢ P.group j,
        ((wiring P).linkUp p.1 p.2 = true ↔ p = P.linkAt i (i - 1 - j)) := by
      intro p hp
      obtain ⟨h₁, h₂⟩ := mem_product.mp hp
      rw [Params.mem_group ha] at h₁ h₂
      rw [hup p.1 p.2 (hlt _ i hi h₁) (hlt _ j (by omega) h₂) (by omega)]
      constructor
      · rintro (hmem | hmem)
        · obtain ⟨i', j', hi', hj', heq⟩ := (Params.mem_globalLinks hh hg).mp hmem
          obtain ⟨h₃, -, h₄, -⟩ := Params.linkAt_spec hg hi' hj'
          rw [← heq] at h₃ h₄
          dsimp only at h₃ h₄
          obtain rfl : i' = i := h₃.symm.trans h₁
          obtain rfl : j' = i' - 1 - j := by omega
          exact heq
        · obtain ⟨i', j', hi', hj', heq⟩ := (Params.mem_globalLinks hh hg).mp hmem
          obtain ⟨h₃, -, h₄, -⟩ := Params.linkAt_spec hg hi' hj'
          rw [← heq] at h₃ h₄
          dsimp only at h₃ h₄
          omega
      · rintro rfl
        exact .inl ((Params.mem_globalLinks hh hg).mpr ⟨i, _, hi, by omega, rfl⟩)
    have hmem : P.linkAt i (i - 1 - j) ∈ P.group i ×ˢ P.group j :=
      mem_product.mpr ⟨(Params.mem_group ha).mpr hspec.1, (Params.mem_group ha).mpr (by omega)⟩
    unfold between
    rw [Finset.sum_eq_single_of_mem _ hmem fun p hp hne => ?_, (hiff _ hmem).mpr rfl]
    · rfl
    · rw [Bool.eq_false_of_not_eq_true (mt (hiff p hp).mp hne)]
      rfl
  rcases Nat.lt_or_gt_of_ne hne with hlt | hgt
  · rw [between_comm hok.linkUp_symm]
    exact hlarger hj hlt
  · exact hlarger hi hgt

end

/-- For every `k` the loop between groups installs one link between any two
groups and `h` at every switch, none within a group. Each entry of the initial
`groupLinkNumberMap` is the number of links installed, and of links up, between
its two groups. -/
theorem global_wiring {k : Nat} (hk : 1 ≤ k) :
    (∀ i j, i < (params k).g → j < (params k).g → i ≠ j →
      (params k).globalLinks.countP (fun l => (params k).JoinsGroups i j l) = 1) ∧
    (∀ s, s < (params k).switchCount →
      (params k).globalLinks.countP (fun l => l.1 = s ∨ l.2 = s) = (params k).h) ∧
    (∀ l ∈ (params k).globalLinks, l.1 / (params k).a ≠ l.2 / (params k).a) ∧
    ∀ i j, i < (params k).g → j < (params k).g → i ≠ j →
      (wiring (params k)).groupLinkNumberMap i j =
        (params k).globalLinks.countP (fun l => (params k).JoinsGroups i j l) ∧
      (wiring (params k)).groupLinkNumberMap i j =
        between (wiring (params k)).linkUp ((params k).group i) ((params k).group j) := by
  have hh : 0 < (params k).h := hk
  have hg : (params k).g = (params k).a * (params k).h + 1 := rfl
  refine ⟨fun i j hi hj hne => Params.countP_joinsGroups hh hg hi hj hne,
    fun s hs => Params.countP_switch hh hg hs, (links_ne hh hg).2.2.1,
    fun i j hi hj hne => ?_⟩
  rw [Params.countP_joinsGroups hh hg hi hj hne, between_wiring hh hg hi hj hne]
  have hone : (wiring (params k)).groupLinkNumberMap i j = 1 := if_pos ⟨hi, hj, hne⟩
  exact ⟨hone, hone⟩

/-- Switch 5 of the default topology, `k = 2`, has two links to other groups. -/
theorem global_wiring_default :
    (params 2).globalLinks.countP (fun l => l.1 = 5 ∨ l.2 = 5) = 2 :=
  (global_wiring (k := 2) (by decide)).2.1 5 (by decide)

end

end MoeJit.Dragonfly
