import MoeJit.Topology.Dragonfly

/-!
# Reconfiguration of the dragonfly

`incremental_change_for_MUSE` looks for four groups whose links are better joined
crosswise, picks a switch in each at random and, when the links it wants are down
and the others up, takes two links up and two down
(`link_reconfiguration_for_MUSE`).

The arithmetic of `float` is a parameter of which nothing is assumed, and `rand`
an arbitrary sequence: which groups and switches are picked does not matter, only
that the groups are different and the links checked (`incrementalChange_spec`).
-/

namespace MoeJit.Dragonfly

open LinkGraph List

/-! ## 1. The search -/

/-- The operations on `float` that the search uses. -/
structure FloatOps (F : Type) where
  ofInt : Int → F
  add : F → F → F
  sub : F → F → F
  div : F → F → F
  lt : F → F → Bool
  eq : F → F → Bool
  /-- The conversion to `int`. -/
  trunc : F → Int

/-- The results of `rand` to come. -/
abbrev Rand := Nat → Nat

def Rand.next (rand : Rand) : Nat × Rand := (rand 0, fun n => rand (n + 1))

/-- Four groups, or a switch of each: the links between the first two and between
the last two are wanted, in place of those crosswise. -/
structure Quad where
  fst : Nat
  snd : Nat
  trd : Nat
  fth : Nat

section

variable {F : Type} (ops : FloatOps F) (P : Params)

/-- `traffic_matrix`. -/
def trafficMatrix (rankID2nodeIndex : Nat → Nat) (flows : List (Nat × Nat)) : Nat → Nat → F :=
  flows.foldl (fun matrix flow =>
    let groupIndex1 := rankID2nodeIndex flow.1 / (P.a * P.p)
    let groupIndex2 := rankID2nodeIndex flow.2 / (P.a * P.p)
    let matrix := set2 matrix groupIndex1 groupIndex2
      (ops.add (matrix groupIndex1 groupIndex2) (ops.ofInt 1))
    set2 matrix groupIndex2 groupIndex1
      (ops.add (matrix groupIndex2 groupIndex1) (ops.ofInt 1))) fun _ _ => ops.ofInt 0

/-- `AVG`, from the traffic and the numbers of links. -/
def avg (traffic : Nat → Nat → F) (topology : Nat → Nat → Int) (i j : Nat) : F :=
  if i = j then ops.ofInt 0
  else if topology i j ≠ 0 then ops.div (traffic i j) (ops.ofInt (topology i j))
  else traffic i j

/-- `AVG[i][j] + AVG[j][i]`. -/
def heat (AVG : Nat → Nat → F) (i j : Nat) : F := ops.add (AVG i j) (AVG j i)

/-- The loop for `hottest_pair` and `target`. -/
def hottestPairs (AVG : Nat → Nat → F) : List (Nat × Nat) × F :=
  ((List.range P.g).flatMap fun i => (List.range P.g).map fun j => (i, j)).foldl
    (fun st p =>
      let (hottestPair, target) := st
      if p.1 = p.2 then st
      else if ops.lt target (heat ops AVG p.1 p.2) then ([p], heat ops AVG p.1 p.2)
      else if ops.eq (heat ops AVG p.1 p.2) target then (hottestPair ++ [p], target)
      else st) ([], ops.ofInt 0)

/-- The body of the loop for `change_pair` and `best_target`. -/
def addChangePairs (AVG : Nat → Nat → F) (hottest : F) (hot : Nat × Nat)
    (st : List Quad × F) (kl : Nat × Nat) : List Quad × F :=
  let g1 := min hot.1 hot.2
  let g2 := max hot.1 hot.2
  let g3 := min kl.1 kl.2
  let g4 := max kl.1 kl.2
  if (g1 = g3 ∨ g2 = g4) ∨ (g1 = g4 ∨ g2 = g3) then st
  else
    let sum := ops.add (ops.add hottest (AVG g3 g4)) (AVG g4 g3)
    let straight := ops.sub (ops.sub sum (heat ops AVG g1 g3)) (heat ops AVG g2 g4)
    let crossed := ops.sub (ops.sub sum (heat ops AVG g1 g4)) (heat ops AVG g2 g3)
    let better (quad : Quad) (target : F) (st : List Quad × F) : List Quad × F :=
      if ops.lt (ops.ofInt 0) target then
        (st.1 ++ [quad], if ops.lt st.2 target then target else st.2)
      else st
    better ⟨g1, g2, g4, g3⟩ crossed (better ⟨g1, g2, g3, g4⟩ straight st)

/-- The loop for `change_pair` and `best_target`. -/
def changePairs (AVG : Nat → Nat → F) (hottestPair : List (Nat × Nat)) (hottest : F) :
    List Quad × F :=
  hottestPair.foldl (fun st hot =>
    ((List.range P.g).flatMap fun k => (List.range' (k + 1) (P.g - (k + 1))).map fun l =>
      (k, l)).foldl (addChangePairs ops AVG hottest hot) st) ([], ops.ofInt 0)

/-- What the sort goes by. -/
def target (AVG : Nat → Nat → F) (a : Quad) : F :=
  ops.sub (ops.sub
    (ops.add (ops.add (ops.add (AVG a.trd a.fth) (AVG a.fth a.trd)) (AVG a.fst a.snd))
      (AVG a.snd a.fst))
    (heat ops AVG a.fst a.trd)) (heat ops AVG a.snd a.fth)

/-- The body of the sort: a later quadruple that is better comes first, one that
is as good comes first or not at random. -/
def sortStep (AVG : Nat → Nat → F) (st : List Quad × Rand) (ij : Nat × Nat) : List Quad × Rand :=
  let (quads, rand) := st
  match quads[ij.1]?, quads[ij.2]? with
  | some a, some b =>
    if ops.lt (target ops AVG a) (target ops AVG b) then
      ((quads.set ij.1 b).set ij.2 a, rand)
    else if ops.eq (target ops AVG a) (target ops AVG b) then
      (if rand.next.1 % 2 ≠ 0 then (quads.set ij.1 b).set ij.2 a else quads, rand.next.2)
    else st
  | _, _ => st

def sortPairs (AVG : Nat → Nat → F) (quads : List Quad) (rand : Rand) : List Quad × Rand :=
  ((List.range quads.length).flatMap fun i =>
    (List.range' (i + 1) (quads.length - (i + 1))).map fun j => (i, j)).foldl
    (sortStep ops AVG) (quads, rand)

/-- `candidate_switch_change_pair`: the switches of four groups. -/
def candidates (q : Quad) : List Quad :=
  (List.range' (q.fst * P.a) P.a).flatMap fun s1 =>
    (List.range' (q.snd * P.a) P.a).flatMap fun s2 =>
      (List.range' (q.trd * P.a) P.a).flatMap fun s3 =>
        (List.range' (q.fth * P.a) P.a).map fun s4 => ⟨s1, s2, s3, s4⟩

/-! ## 2. The change -/

namespace DragonflyTopology

/-- `backgroundLinkMap[s][t]`, of null pointers where there is no entry. -/
def linkInfo (st : DragonflyTopology) (s t : Nat) : LinkInfo :=
  (st.backgroundLinkMap s t).getD ⟨0, 0⟩

/-- `change_linkdevice_state`. -/
def changeLinkdeviceState (st : DragonflyTopology) (device1 device2 : Nat) (state : Bool) :
    DragonflyTopology :=
  let groupIndex1 := st.switchID2Index (st.node device1) / P.a
  let groupIndex2 := st.switchID2Index (st.node device2) / P.a
  let change : Int := if state then 1 else -1
  let numbers := set2 st.groupLinkNumberMap groupIndex1 groupIndex2
    (st.groupLinkNumberMap groupIndex1 groupIndex2 + change)
  { st with
    linkDeviceState := set2 (set2 st.linkDeviceState device1 device2 state) device2 device1 state
    groupLinkNumberMap := set2 numbers groupIndex2 groupIndex1
      (numbers groupIndex2 groupIndex1 + change) }

/-- `SetUp` or `SetDown` of both interfaces of a link, and its new state. -/
def setLinkState (st : DragonflyTopology) (s t : Nat) (state : Bool) : DragonflyTopology :=
  let info := st.linkInfo s t
  { st with isUp := Function.update (Function.update st.isUp info.device1 state) info.device2 state
    }.changeLinkdeviceState P info.device1 info.device2 state

/-- `link_reconfiguration_for_MUSE`. -/
def linkReconfiguration (st : DragonflyTopology) (c : Quad) : DragonflyTopology :=
  let st := st.setLinkState P c.fst c.snd true
  let st := st.setLinkState P c.trd c.fth true
  let st := st.setLinkState P (min c.fst c.trd) (max c.fst c.trd) false
  st.setLinkState P (min c.snd c.fth) (max c.snd c.fth) false

/-- The test of a candidate: the wanted links down at both ends, the others up. -/
def suits (st : DragonflyTopology) (c : Quad) : Bool :=
  let info1 := st.linkInfo c.fst c.snd
  let info2 := st.linkInfo c.trd c.fth
  let info3 := st.linkInfo c.fst c.trd
  let info4 := st.linkInfo c.snd c.fth
  !st.isUp info1.device1 && !st.isUp info1.device2 &&
    !st.isUp info2.device1 && !st.isUp info2.device2 &&
    st.isUp info3.device1 && st.isUp info3.device2 &&
    st.isUp info4.device1 && st.isUp info4.device2

end DragonflyTopology

/-- The loop over the candidates of four groups, for at most `fuel` of them: the
changed topology, if one suits. -/
def chooseCandidate (st : DragonflyTopology) :
    Nat → List Quad → Rand → Option DragonflyTopology × Rand
  | 0, _, rand => (none, rand)
  | fuel + 1, quads, rand =>
    let randomIndex := rand.next.1 % quads.length
    match quads[randomIndex]? with
    | none => (none, rand)
    | some c =>
      if st.suits c then (some (st.linkReconfiguration P c), rand.next.2)
      else chooseCandidate st fuel (quads.eraseIdx randomIndex) rand.next.2

/-- The loop over `change_pair`. -/
def choose (st : DragonflyTopology) : List Quad → Rand → DragonflyTopology
  | [], _ => st
  | q :: quads, rand =>
    match chooseCandidate P st (candidates P q).length (candidates P q) rand with
    | (some st', _) => st'
    | (none, rand) => choose st quads rand

/-- `incremental_change_for_MUSE`, with the value it returns. -/
def incrementalChange (rankID2nodeIndex : Nat → Nat) (flows : List (Nat × Nat)) (rand : Rand)
    (st : DragonflyTopology) : DragonflyTopology × F :=
  if flows.isEmpty then (st, ops.ofInt 0)
  else
    let AVG := avg ops (trafficMatrix ops P rankID2nodeIndex flows) st.groupLinkNumberMap
    let (hottestPair, target) := hottestPairs ops P AVG
    let hottest := ops.ofInt (ops.trunc target)
    let (quads, bestTarget) := changePairs ops P AVG hottestPair hottest
    let (quads, rand) := sortPairs ops AVG quads rand
    (choose P st quads rand, bestTarget)

end

/-- The topologies that a sequence of changes leads to from the wiring, with any
flows, ranks and random numbers. -/
inductive Reachable {F : Type} (ops : FloatOps F) (P : Params) : DragonflyTopology → Prop
  | wiring : Reachable ops P (wiring P)
  | change {st : DragonflyTopology} (rankID2nodeIndex : Nat → Nat) (flows : List (Nat × Nat))
      (rand : Rand) : Reachable ops P st →
      Reachable ops P (incrementalChange ops P rankID2nodeIndex flows rand st).1

/-! ## 3. What is picked -/

variable {quads : List Quad} {rand : Rand} {c : Quad} {info : LinkInfo}

section

variable {F : Type} {ops : FloatOps F} {P : Params}

/-- Four different groups. -/
structure Quad.Apart (P : Params) (q : Quad) : Prop where
  nodup : [q.fst, q.snd, q.trd, q.fth].Nodup
  fst_lt : q.fst < P.g
  snd_lt : q.snd < P.g
  trd_lt : q.trd < P.g
  fth_lt : q.fth < P.g

/-- The pairs of the hottest groups are of two groups. -/
theorem hottestPairs_spec (AVG : Nat → Nat → F) :
    ∀ p ∈ (hottestPairs ops P AVG).1, p.1 ≠ p.2 ∧ p.1 < P.g ∧ p.2 < P.g := by
  unfold hottestPairs
  refine List.foldlRecOn _ (motive := fun st : List (Nat × Nat) × F =>
    ∀ p ∈ st.1, p.1 ≠ p.2 ∧ p.1 < P.g ∧ p.2 < P.g) _
    (fun p hp => absurd hp not_mem_nil) ?_
  intro st hst ij hij
  simp only [mem_flatMap, mem_range, mem_map] at hij
  obtain ⟨i, hi, j, hj, rfl⟩ := hij
  obtain ⟨pairs, target⟩ := st
  simp only
  split
  · exact hst
  · next hne =>
    split
    · intro p hp
      rw [mem_singleton] at hp
      exact hp ▸ ⟨hne, hi, hj⟩
    · split
      · intro p hp
        rcases mem_append.mp hp with hp | hp
        · exact hst p hp
        · rw [mem_singleton] at hp
          exact hp ▸ ⟨hne, hi, hj⟩
      · exact hst

/-- A pair of groups that the test skips next to a hottest pair. -/
def Skipped (hot kl : Nat × Nat) : Prop :=
  (min hot.1 hot.2 = min kl.1 kl.2 ∨ max hot.1 hot.2 = max kl.1 kl.2) ∨
    (min hot.1 hot.2 = max kl.1 kl.2 ∨ max hot.1 hot.2 = min kl.1 kl.2)

variable {AVG : Nat → Nat → F} {hottest : F}

/-- What holds of both exchanges of two pairs holds of all that are taken. -/
theorem addChangePairs_forall {p : Quad → Prop} {hot kl : Nat × Nat} {st : List Quad × F}
    (hst : ∀ q ∈ st.1, p q) (hnew : ¬Skipped hot kl →
      p ⟨min hot.1 hot.2, max hot.1 hot.2, min kl.1 kl.2, max kl.1 kl.2⟩ ∧
        p ⟨min hot.1 hot.2, max hot.1 hot.2, max kl.1 kl.2, min kl.1 kl.2⟩) :
    ∀ q ∈ (addChangePairs ops AVG hottest hot st kl).1, p q := by
  unfold addChangePairs
  simp only
  split
  · exact hst
  · next hskip =>
    obtain ⟨hstraight, hcrossed⟩ := hnew hskip
    have hbetter : ∀ {st : List Quad × F} {q : Quad} {t : F}, (∀ q ∈ st.1, p q) → p q →
        ∀ q' ∈ (if ops.lt (ops.ofInt 0) t then
          (st.1 ++ [q], if ops.lt st.2 t then t else st.2) else st).1, p q' := by
      intro st q t hst hq q' hq'
      split at hq'
      · rcases mem_append.mp hq' with hq' | hq'
        · exact hst q' hq'
        · rw [mem_singleton] at hq'
          exact hq' ▸ hq
      · exact hst q' hq'
    exact hbetter (hbetter hst hstraight) hcrossed

theorem changePairs_forall {p : Quad → Prop} {hottestPair : List (Nat × Nat)}
    (hnew : ∀ hot ∈ hottestPair, ∀ kl : Nat × Nat, kl.1 < kl.2 → kl.2 < P.g → ¬Skipped hot kl →
      p ⟨min hot.1 hot.2, max hot.1 hot.2, min kl.1 kl.2, max kl.1 kl.2⟩ ∧
        p ⟨min hot.1 hot.2, max hot.1 hot.2, max kl.1 kl.2, min kl.1 kl.2⟩) :
    ∀ q ∈ (changePairs ops P AVG hottestPair hottest).1, p q := by
  unfold changePairs
  refine List.foldlRecOn _ (motive := fun st : List Quad × F => ∀ q ∈ st.1, p q) _
    (fun q hq => absurd hq not_mem_nil) ?_
  intro st hst hot hhot
  refine List.foldlRecOn _ (motive := fun st : List Quad × F => ∀ q ∈ st.1, p q) _ hst ?_
  intro st hst kl hkl
  simp only [mem_flatMap, mem_range, mem_map, mem_range'_1] at hkl
  obtain ⟨k, hk, l, hl, rfl⟩ := hkl
  exact addChangePairs_forall hst (hnew hot hhot (k, l) hl.1 (by simp only; omega))

/-- The test that skips a pair of groups leaves four different ones. -/
theorem changePairs_spec {hottestPair : List (Nat × Nat)}
    (hpairs : ∀ p ∈ hottestPair, p.1 ≠ p.2 ∧ p.1 < P.g ∧ p.2 < P.g) :
    ∀ q ∈ (changePairs ops P AVG hottestPair hottest).1, q.Apart P := by
  refine changePairs_forall fun hot hhot kl hlt hin hskip => ?_
  obtain ⟨hne, hfst, hsnd⟩ := hpairs hot hhot
  unfold Skipped at hskip
  have hbounds : min hot.1 hot.2 < P.g ∧ max hot.1 hot.2 < P.g ∧ min kl.1 kl.2 < P.g ∧
      max kl.1 kl.2 < P.g := by omega
  obtain ⟨h₁, h₂, h₃, h₄⟩ := hbounds
  have hnodup : [min hot.1 hot.2, max hot.1 hot.2, min kl.1 kl.2, max kl.1 kl.2].Nodup :=
    nodup_four_iff.mpr (by omega)
  have hcrossed : [min hot.1 hot.2, max hot.1 hot.2, max kl.1 kl.2, min kl.1 kl.2].Nodup :=
    nodup_four_iff.mpr (by omega)
  exact ⟨⟨hnodup, h₁, h₂, h₃, h₄⟩, hcrossed, h₁, h₂, h₄, h₃⟩

theorem mem_sortPairs : ∀ q ∈ (sortPairs ops AVG quads rand).1, q ∈ quads := by
  have hswap : ∀ {l : List Quad} {i j : Nat} {a b : Quad}, l[i]? = some a → l[j]? = some b →
      ∀ q ∈ (l.set i b).set j a, q ∈ l := by
    intro l i j a b ha hb q hq
    rcases mem_or_eq_of_mem_set hq with hq | rfl
    · rcases mem_or_eq_of_mem_set hq with hq | rfl
      · exact hq
      · exact mem_of_getElem? hb
    · exact mem_of_getElem? ha
  unfold sortPairs
  refine List.foldlRecOn _ (motive := fun st : List Quad × Rand => ∀ q ∈ st.1, q ∈ quads) _
    (fun q hq => hq) ?_
  intro st hst ij _
  obtain ⟨quads', rand'⟩ := st
  unfold sortStep
  simp only
  split
  · next a b ha hb =>
    split
    · exact fun q hq => hst q (hswap ha hb q hq)
    · split
      · intro q hq
        simp only at hq
        split at hq
        · exact hst q (hswap ha hb q hq)
        · exact hst q hq
      · exact hst
  · exact hst

theorem mem_candidates {q : Quad} (h : c ∈ candidates P q) :
    c.fst ∈ P.group q.fst ∧ c.snd ∈ P.group q.snd ∧ c.trd ∈ P.group q.trd ∧
      c.fth ∈ P.group q.fth := by
  simp only [candidates, mem_flatMap, mem_map, mem_range'_1] at h
  obtain ⟨s1, h1, s2, h2, s3, h3, s4, h4, rfl⟩ := h
  simp only [Params.group, Finset.mem_Ico]
  exact ⟨h1, h2, h3, h4⟩

/-- Four switches of different groups, with the wanted links down and the others
up. -/
structure Chosen (P : Params) (st : DragonflyTopology) (c : Quad) : Prop where
  fst_lt : c.fst < P.switchCount
  snd_lt : c.snd < P.switchCount
  trd_lt : c.trd < P.switchCount
  fth_lt : c.fth < P.switchCount
  nodup : [c.fst / P.a, c.snd / P.a, c.trd / P.a, c.fth / P.a].Nodup
  suits : st.suits c = true

theorem chooseCandidate_spec {st st' : DragonflyTopology} {fuel : Nat} {rand' : Rand}
    (h : chooseCandidate P st fuel quads rand = (some st', rand')) :
    ∃ c ∈ quads, st.suits c = true ∧ st' = st.linkReconfiguration P c := by
  induction fuel generalizing quads rand with
  | zero => cases h
  | succ fuel ih =>
    rw [chooseCandidate] at h
    split at h
    · cases h
    · next c hc =>
      split at h
      · next hsuits =>
        cases h
        exact ⟨c, mem_of_getElem? hc, hsuits, rfl⟩
      · obtain ⟨c', hc', hrest⟩ := ih h
        exact ⟨c', mem_of_mem_eraseIdx hc', hrest⟩

theorem choose_spec (ha : 0 < P.a) {st : DragonflyTopology} (hquads : ∀ q ∈ quads, q.Apart P) :
    choose P st quads rand = st ∨ ∃ q ∈ quads, ∃ c ∈ candidates P q, Chosen P st c ∧
        choose P st quads rand = st.linkReconfiguration P c := by
  induction quads generalizing rand with
  | nil => exact .inl rfl
  | cons q quads ih =>
    rw [choose]
    split
    · next st' rand' hchoose =>
      obtain ⟨c, hc, hsuits, rfl⟩ := chooseCandidate_spec hchoose
      obtain ⟨h1, h2, h3, h4⟩ := mem_candidates hc
      rw [Params.mem_group ha] at h1 h2 h3 h4
      have hapart := hquads q mem_cons_self
      have hlt : ∀ s i, s / P.a = i → i < P.g → s < P.switchCount := fun s i hs hi =>
        (Nat.div_lt_iff_lt_mul ha).mp (hs ▸ hi)
      exact .inr ⟨q, mem_cons_self, c, hc,
        ⟨hlt _ _ h1 hapart.fst_lt, hlt _ _ h2 hapart.snd_lt, hlt _ _ h3 hapart.trd_lt,
          hlt _ _ h4 hapart.fth_lt, by rw [h1, h2, h3, h4]; exact hapart.nodup, hsuits⟩, rfl⟩
    · rcases ih fun q' hq' => hquads q' (mem_cons_of_mem q hq') with hsame | ⟨q', hq', hrest⟩
      · exact .inl hsame
      · exact .inr ⟨q', mem_cons_of_mem q hq', hrest⟩

/-- A call changes nothing, or exchanges links of four switches of different
groups. -/
theorem incrementalChange_spec (ha : 0 < P.a) (rankID2nodeIndex : Nat → Nat)
    (flows : List (Nat × Nat)) (rand : Rand) (st : DragonflyTopology) :
    (incrementalChange ops P rankID2nodeIndex flows rand st).1 = st ∨
    ∃ c, Chosen P st c ∧
      (incrementalChange ops P rankID2nodeIndex flows rand st).1 = st.linkReconfiguration P c := by
  unfold incrementalChange
  split
  · exact .inl rfl
  · refine (choose_spec ha fun q hq => ?_).imp_right fun ⟨q, _, c, _, hc⟩ => ⟨c, hc⟩
    exact changePairs_spec (hottestPairs_spec _) q (mem_sortPairs q hq)

end

/-! ## 4. One link -/

namespace DragonflyTopology

variable {P : Params} {st : DragonflyTopology} {s t : Nat} {v : Bool}

/-- All switches are linked and in their groups. -/
structure Complete (P : Params) (st : DragonflyTopology) : Prop where
  linked : ∀ s t, s < P.switchCount → t < P.switchCount → s ≠ t →
    (st.backgroundLinkMap s t).isSome = true
  index : ∀ s, s < P.switchCount → st.switchID2Index s = s

theorem Complete.setLinkState (h : Complete P st) : Complete P (st.setLinkState P s t v) :=
  ⟨h.linked, h.index⟩

section

variable (h : st.backgroundLinkMap s t = some info)
include h

theorem linkInfo_of_lookup : st.linkInfo s t = info := by
  rw [linkInfo, h, Option.getD_some]

/-- The interfaces of a link, and those of no other link, take the new state. -/
theorem isUp_setLinkState (d : Nat) : (st.setLinkState P s t v).isUp d =
      if d = info.device1 ∨ d = info.device2 then v else st.isUp d := by
  show Function.update (Function.update st.isUp (st.linkInfo s t).device1 v)
    (st.linkInfo s t).device2 v d = _
  rw [linkInfo_of_lookup h]
  simp only [Function.update_apply]
  split
  · next h₂ => rw [if_pos (.inr h₂)]
  · next h₂ =>
    split
    · next h₁ => rw [if_pos (.inl h₁)]
    · next h₁ => rw [if_neg (not_or.mpr ⟨h₁, h₂⟩)]

theorem linkDeviceState_setLinkState (d d' : Nat) : (st.setLinkState P s t v).linkDeviceState d d' =
      if (d = info.device2 ∧ d' = info.device1) ∨ (d = info.device1 ∧ d' = info.device2) then v
      else st.linkDeviceState d d' := by
  show set2 (set2 st.linkDeviceState (st.linkInfo s t).device1 (st.linkInfo s t).device2 v)
    (st.linkInfo s t).device2 (st.linkInfo s t).device1 v d d' = _
  rw [linkInfo_of_lookup h, set2_apply, set2_apply]
  split
  · next h₂ => rw [if_pos (.inl h₂)]
  · next h₂ =>
    split
    · next h₁ => rw [if_pos (.inr h₁)]
    · next h₁ => rw [if_neg (not_or.mpr ⟨h₂, h₁⟩)]

end

section

variable (hok : LinksOk st) (h : st.backgroundLinkMap s t = some info)
include hok h

theorem LinksOk.device_ne {info' : LinkInfo} {s' t' : Nat}
    (h' : st.backgroundLinkMap s' t' = some info') (hne : ¬ ((s' = s ∧ t' = t) ∨ (s' = t ∧ t' = s)))
    :
    (info'.device1 ≠ info.device1 ∧ info'.device1 ≠ info.device2) ∧
      info'.device2 ≠ info.device1 ∧ info'.device2 ≠ info.device2 := by
  have hrev := hok.reverse s t info h
  have hrev' := hok.reverse s' t' info' h'
  refine ⟨⟨fun heq => hne ?_, fun heq => hne ?_⟩, fun heq => hne ?_, fun heq => hne ?_⟩
  · exact .inl (hok.unique _ _ _ _ _ _ h' h heq)
  · exact .inr (hok.unique _ _ _ _ _ _ h' hrev heq)
  · exact .inr (hok.unique _ _ _ _ _ _ hrev' h heq).symm
  · exact .inl (hok.unique _ _ _ _ _ _ hrev' hrev heq).symm

theorem linksOk_setLinkState : LinksOk (st.setLinkState P s t v) where
  reverse := hok.reverse
  device_lt := hok.device_lt
  node_eq := hok.node_eq
  unique := hok.unique
  state s' t' info' h' := by
    have h'' : st.backgroundLinkMap s' t' = some info' := h'
    rw [linkDeviceState_setLinkState h, isUp_setLinkState h, isUp_setLinkState h]
    by_cases hsame : (s' = s ∧ t' = t) ∨ (s' = t ∧ t' = s)
    · rcases hsame with ⟨rfl, rfl⟩ | ⟨rfl, rfl⟩
      · obtain rfl : info = info' := Option.some.inj (h.symm.trans h'')
        simp
      · obtain rfl : info.reverse = info' :=
          Option.some.inj ((hok.reverse _ _ info h).symm.trans h'')
        simp [LinkInfo.reverse]
    · obtain ⟨⟨h₁, h₂⟩, h₃, h₄⟩ := hok.device_ne h h'' hsame
      simp only [h₁, h₂, h₃, h₄, or_self, false_and, if_false]
      exact hok.state s' t' info' h''

theorem linkUp_setLinkState : (st.setLinkState P s t v).linkUp = setLink st.linkUp s t v := by
  funext s' t'
  cases h' : st.backgroundLinkMap s' t' with
  | none =>
    have h'' : (st.setLinkState P s t v).backgroundLinkMap s' t' = none := h'
    rw [linkUp_of_none h'', setLink_of_ne, linkUp_of_none h']
    rintro (⟨rfl, rfl⟩ | ⟨rfl, rfl⟩)
    · rw [h] at h'
      cases h'
    · rw [hok.reverse _ _ info h] at h'
      cases h'
  | some info' =>
    have h'' : (st.setLinkState P s t v).backgroundLinkMap s' t' = some info' := h'
    rw [linkUp_of_lookup h'', isUp_setLinkState h, isUp_setLinkState h]
    by_cases hsame : (s' = s ∧ t' = t) ∨ (s' = t ∧ t' = s)
    · rw [setLink, if_pos hsame]
      rcases hsame with ⟨rfl, rfl⟩ | ⟨rfl, rfl⟩
      · obtain rfl : info = info' := Option.some.inj (h.symm.trans h')
        simp
      · obtain rfl : info.reverse = info' :=
          Option.some.inj ((hok.reverse _ _ info h).symm.trans h')
        simp [LinkInfo.reverse]
    · obtain ⟨⟨h₁, h₂⟩, h₃, h₄⟩ := hok.device_ne h h' hsame
      rw [setLink_of_ne hsame, linkUp_of_lookup h', if_neg (not_or.mpr ⟨h₁, h₂⟩),
        if_neg (not_or.mpr ⟨h₃, h₄⟩)]

end

theorem groupLinkNumberMap_setLinkState (hok : LinksOk st) (hcomplete : Complete P st)
    (hs : s < P.switchCount) (ht : t < P.switchCount) (hne : s / P.a ≠ t / P.a) (i j : Nat) :
    (st.setLinkState P s t v).groupLinkNumberMap i j = st.groupLinkNumberMap i j +
      if P.JoinsGroups i j (s, t) then (if v then 1 else -1) else 0 := by
  have hst : s ≠ t := fun heq => hne (congrArg (· / P.a) heq)
  obtain ⟨info, hinfo⟩ := Option.isSome_iff_exists.mp (hcomplete.linked s t hs ht hst)
  have h₁ : st.switchID2Index (st.node info.device1) = s := by
    rw [hok.node_eq s t info hinfo, hcomplete.index s hs]
  have h₂ : st.switchID2Index (st.node info.device2) = t := by
    have hnode : st.node info.device2 = t := hok.node_eq t s _ (hok.reverse s t info hinfo)
    rw [hnode, hcomplete.index t ht]
  simp only [setLinkState, changeLinkdeviceState, linkInfo_of_lookup hinfo, h₁, h₂, set2_apply]
  rw [if_neg fun h : t / P.a = s / P.a ∧ s / P.a = t / P.a => hne h.2]
  generalize (if v = true then 1 else -1 : Int) = change
  have hjoin : P.JoinsGroups i j (s, t) ↔
      (i = t / P.a ∧ j = s / P.a) ∨ (i = s / P.a ∧ j = t / P.a) := by
    constructor
    · rintro (⟨h₃, h₄⟩ | ⟨h₃, h₄⟩)
      · exact .inr ⟨h₃.symm, h₄.symm⟩
      · exact .inl ⟨h₄.symm, h₃.symm⟩
    · rintro (⟨h₃, h₄⟩ | ⟨h₃, h₄⟩)
      · exact .inr ⟨h₄.symm, h₃.symm⟩
      · exact .inl ⟨h₃.symm, h₄.symm⟩
  by_cases hback : i = t / P.a ∧ j = s / P.a
  · rw [if_pos hback, if_pos (hjoin.mpr (.inl hback)), hback.1, hback.2]
  · by_cases hthere : i = s / P.a ∧ j = t / P.a
    · rw [if_neg hback, if_pos hthere, if_pos (hjoin.mpr (.inr hthere)), hthere.1, hthere.2]
    · rw [if_neg hback, if_neg hthere, if_neg fun h => (hjoin.mp h).elim hback hthere, Int.add_zero]

end DragonflyTopology

/-! ## 5. Every sequence of changes -/

section

open DragonflyTopology

variable {P : Params}

/-- The switches of the other groups. -/
def others (P : Params) (s : Nat) : Finset Nat :=
  (Finset.range P.switchCount).filter fun t => t / P.a ≠ s / P.a

/-- The number of links of a switch to other groups that are up. -/
def interGroupDegree (P : Params) (st : DragonflyTopology) (s : Nat) : Nat :=
  between st.linkUp {s} (others P s)

/-- What a sequence of changes from `st₀` keeps. -/
structure Inv (P : Params) (st₀ st : DragonflyTopology) : Prop where
  links : LinksOk st
  complete : Complete P st
  degree : ∀ s, interGroupDegree P st s = interGroupDegree P st₀ s
  numbers : ∀ i j, i < P.g → j < P.g → i ≠ j →
    st.groupLinkNumberMap i j = between st.linkUp (P.group i) (P.group j)
  self : ∀ i, st.groupLinkNumberMap i i = 0

theorem disjoint_others (s : Nat) : Disjoint {s} (others P s) := by
  rw [Finset.disjoint_singleton_left, others, Finset.mem_filter]
  exact fun h => h.2 rfl

theorem disjoint_group (ha : 0 < P.a) {i j : Nat} (hne : i ≠ j) :
    Disjoint (P.group i) (P.group j) := by
  rw [Finset.disjoint_left]
  intro s hi hj
  rw [Params.mem_group ha] at hi hj
  exact hne (hi.symm.trans hj)

theorem joins_others {s x y : Nat} (hx : x < P.switchCount) (hy : y < P.switchCount)
    (hne : x / P.a ≠ y / P.a) : Joins {s} (others P s) x y ↔ x = s ∨ y = s := by
  unfold Joins others
  simp only [Finset.mem_singleton, Finset.mem_filter, Finset.mem_range]
  constructor
  · rintro (⟨rfl, -⟩ | ⟨rfl, -⟩)
    · exact .inl rfl
    · exact .inr rfl
  · rintro (rfl | rfl)
    · exact .inl ⟨rfl, hy, hne.symm⟩
    · exact .inr ⟨rfl, hx, hne⟩

theorem joins_group (ha : 0 < P.a) {i j x y : Nat} :
    Joins (P.group i) (P.group j) x y ↔ P.JoinsGroups i j (x, y) := by
  unfold Joins Params.JoinsGroups
  simp only [Params.mem_group ha]
  exact or_congr_right and_comm

variable {st : DragonflyTopology}

theorem Chosen.exchangeable (h : Chosen P st c) (hcomplete : Complete P st) :
    Exchangeable st.linkUp c.fst c.snd c.trd c.fth := by
  obtain ⟨⟨h12, h13, h14⟩, ⟨h23, h24⟩, h34⟩ := nodup_four_iff.mp h.nodup
  have hup : ∀ s t, s < P.switchCount → t < P.switchCount → s / P.a ≠ t / P.a →
      st.linkUp s t = (st.isUp (st.linkInfo s t).device1 && st.isUp (st.linkInfo s t).device2) := by
    intro s t hs ht hne
    obtain ⟨info, hinfo⟩ := Option.isSome_iff_exists.mp
      (hcomplete.linked s t hs ht fun heq => hne (congrArg (· / P.a) heq))
    rw [linkInfo_of_lookup hinfo, linkUp_of_lookup hinfo]
  have hsuits := h.suits
  unfold DragonflyTopology.suits at hsuits
  simp only [Bool.and_eq_true, Bool.not_eq_true'] at hsuits
  obtain ⟨⟨⟨⟨⟨⟨⟨hd₁, hd₂⟩, hd₃⟩, hd₄⟩, hu₁⟩, hu₂⟩, hu₃⟩, hu₄⟩ := hsuits
  refine ⟨?_, ?_, ?_, ?_, ?_⟩
  · have hne : ∀ {s t : Nat}, s / P.a ≠ t / P.a → s ≠ t := fun h heq => h (congrArg (· / P.a) heq)
    exact nodup_four_iff.mpr ⟨⟨hne h12, hne h13, hne h14⟩, ⟨hne h23, hne h24⟩, hne h34⟩
  · rw [hup _ _ h.fst_lt h.snd_lt h12, hd₁, hd₂, Bool.and_self]
  · rw [hup _ _ h.trd_lt h.fth_lt h34, hd₃, hd₄, Bool.and_self]
  · rw [hup _ _ h.fst_lt h.trd_lt h13, hu₁, hu₂, Bool.and_self]
  · rw [hup _ _ h.snd_lt h.fth_lt h24, hu₃, hu₄, Bool.and_self]

section

variable (hok : LinksOk st) (hcomplete : Complete P st)
include hok hcomplete

theorem setLinkState_step {s t : Nat} (hs : s < P.switchCount) (ht : t < P.switchCount)
    (hne : s / P.a ≠ t / P.a) (v : Bool) :
    LinksOk (st.setLinkState P s t v) ∧ Complete P (st.setLinkState P s t v) ∧
    (st.setLinkState P s t v).linkUp = setLink st.linkUp s t v ∧
    ∀ i j, (st.setLinkState P s t v).groupLinkNumberMap i j = st.groupLinkNumberMap i j +
      if P.JoinsGroups i j (s, t) then (if v then 1 else -1) else 0 := by
  obtain ⟨info, hinfo⟩ := Option.isSome_iff_exists.mp
    (hcomplete.linked s t hs ht fun heq => hne (congrArg (· / P.a) heq))
  exact ⟨linksOk_setLinkState hok hinfo, hcomplete.setLinkState, linkUp_setLinkState hok hinfo,
    groupLinkNumberMap_setLinkState hok hcomplete hs ht hne⟩

/-- The same for the links that are addressed with the smaller switch first. -/
theorem setLinkState_step_minMax {s t : Nat} (hs : s < P.switchCount) (ht : t < P.switchCount)
    (hne : s / P.a ≠ t / P.a) (v : Bool) :
    LinksOk (st.setLinkState P (min s t) (max s t) v) ∧
    Complete P (st.setLinkState P (min s t) (max s t) v) ∧
    (st.setLinkState P (min s t) (max s t) v).linkUp = setLink st.linkUp s t v ∧
    ∀ i j, (st.setLinkState P (min s t) (max s t) v).groupLinkNumberMap i j =
      st.groupLinkNumberMap i j +
        if P.JoinsGroups i j (s, t) then (if v then 1 else -1) else 0 := by
  rcases le_total s t with hle | hle
  · rw [min_eq_left hle, Nat.max_eq_right hle]
    exact setLinkState_step hok hcomplete hs ht hne v
  · rw [min_eq_right hle, Nat.max_eq_left hle, setLink_comm]
    obtain ⟨hok', hcomplete', hup, hnumbers⟩ := setLinkState_step hok hcomplete ht hs hne.symm v
    refine ⟨hok', hcomplete', hup, fun i j => (hnumbers i j).trans ?_⟩
    refine congrArg (st.groupLinkNumberMap i j + ·) (if_congr ?_ rfl rfl)
    unfold Params.JoinsGroups
    simp only
    tauto

/-- A reconfiguration is an exchange, and counts it. -/
theorem linkReconfiguration_spec (h : Chosen P st c) :
    LinksOk (st.linkReconfiguration P c) ∧ Complete P (st.linkReconfiguration P c) ∧
    (st.linkReconfiguration P c).linkUp = LinkGraph.exchange st.linkUp c.fst c.snd c.trd c.fth ∧
    ∀ i j, (st.linkReconfiguration P c).groupLinkNumberMap i j +
      ((if P.JoinsGroups i j (c.fst, c.trd) then 1 else 0) +
      if P.JoinsGroups i j (c.snd, c.fth) then 1 else 0) = st.groupLinkNumberMap i j +
      ((if P.JoinsGroups i j (c.fst, c.snd) then 1 else 0) +
      if P.JoinsGroups i j (c.trd, c.fth) then 1 else 0) := by
  obtain ⟨⟨h12, h13, -⟩, ⟨-, h24⟩, h34⟩ := nodup_four_iff.mp h.nodup
  obtain ⟨hok₁, hcomplete₁, hup₁, hnumbers₁⟩ :=
    setLinkState_step hok hcomplete h.fst_lt h.snd_lt h12 true
  obtain ⟨hok₂, hcomplete₂, hup₂, hnumbers₂⟩ :=
    setLinkState_step hok₁ hcomplete₁ h.trd_lt h.fth_lt h34 true
  obtain ⟨hok₃, hcomplete₃, hup₃, hnumbers₃⟩ :=
    setLinkState_step_minMax hok₂ hcomplete₂ h.fst_lt h.trd_lt h13 false
  obtain ⟨hok₄, hcomplete₄, hup₄, hnumbers₄⟩ :=
    setLinkState_step_minMax hok₃ hcomplete₃ h.snd_lt h.fth_lt h24 false
  refine ⟨hok₄, hcomplete₄, ?_, fun i j => ?_⟩
  · unfold linkReconfiguration LinkGraph.exchange
    rw [hup₄, hup₃, hup₂, hup₁]
  · unfold linkReconfiguration
    simp only
    have hneg (p : Prop) [Decidable p] : (if p then (-1 : Int) else 0) = -if p then 1 else 0 := by
      split <;> rfl
    rw [hnumbers₄, hnumbers₃, hnumbers₂, hnumbers₁]
    simp only [if_true, Bool.false_eq_true, if_false, hneg]
    ring

end

theorem ite_or_of_ne {x y s : Nat} (hne : x ≠ y) :
    (if x = s ∨ y = s then 1 else 0) = (if x = s then 1 else 0) + if y = s then 1 else 0 := by
  by_cases hx : x = s
  · rw [if_pos (Or.inl hx), if_pos hx, if_neg fun hy => hne (hx.trans hy.symm)]
  · rw [if_neg hx, zero_add]
    exact if_congr (or_iff_right hx) rfl rfl

theorem Inv.linkReconfiguration (ha : 0 < P.a) {st₀ : DragonflyTopology} (hinv : Inv P st₀ st)
    (h : Chosen P st c) : Inv P st₀ (st.linkReconfiguration P c) := by
  obtain ⟨hok, hcomplete, hup, hnumbers⟩ := linkReconfiguration_spec hinv.links hinv.complete h
  obtain ⟨⟨h12, h13, -⟩, ⟨-, h24⟩, h34⟩ := nodup_four_iff.mp h.nodup
  have hex := h.exchangeable hinv.complete
  have hsymm := hinv.links.linkUp_symm
  refine ⟨hok, hcomplete, fun s => ?_, fun i j hi hj hne => ?_, fun i => ?_⟩
  · -- a switch among the four loses one link and gets one
    have hcount := between_exchange (disjoint_others (P := P) s) hsymm hex
    obtain ⟨⟨n12, n13, -⟩, ⟨-, n24⟩, n34⟩ := nodup_four_iff.mp hex.nodup
    rw [← hinv.degree s, interGroupDegree, interGroupDegree, hup]
    simp only [joins_others h.fst_lt h.snd_lt h12, joins_others h.trd_lt h.fth_lt h34,
      joins_others h.fst_lt h.trd_lt h13, joins_others h.snd_lt h.fth_lt h24,
      ite_or_of_ne n12, ite_or_of_ne n13, ite_or_of_ne n24, ite_or_of_ne n34] at hcount
    rw [add_add_add_comm] at hcount
    exact Nat.add_right_cancel hcount
  · have hcount := congrArg (Nat.cast : Nat → Int)
      (between_exchange (disjoint_group ha hne) hsymm hex)
    simp only [joins_group ha, Nat.cast_add, Nat.cast_ite, Nat.cast_one, Nat.cast_zero] at hcount
    have hnumber := hnumbers i j
    rw [hinv.numbers i j hi hj hne] at hnumber
    rw [hup]
    exact add_right_cancel (hnumber.trans hcount.symm)
  · -- no link that changes is within a group
    have hnone : ∀ s t, s / P.a ≠ t / P.a → ¬ P.JoinsGroups i i (s, t) := by
      rintro s t hne (⟨hs, ht⟩ | ⟨hs, ht⟩)
      · exact hne (hs.trans ht.symm)
      · exact hne (hs.trans ht.symm)
    have hnumber := hnumbers i i
    rw [if_neg (hnone _ _ h13), if_neg (hnone _ _ h24), if_neg (hnone _ _ h12),
      if_neg (hnone _ _ h34), hinv.self i] at hnumber
    exact add_right_cancel hnumber

theorem Inv.wiring (hh : 0 < P.h) (hg : P.g = P.a * P.h + 1) :
    Inv P (wiring P) (Dragonfly.wiring P) := by
  obtain ⟨hok, hlinked, -⟩ := wiring_spec hh hg
  refine ⟨hok, ⟨hlinked, fun s hs => if_pos hs⟩, fun _ => rfl, fun i j hi hj hne => ?_,
    fun i => if_neg fun h => h.2.2 rfl⟩
  rw [between_wiring hh hg hi hj hne]
  exact if_pos ⟨hi, hj, hne⟩

theorem Inv.reachable (ha : 0 < P.a) (hh : 0 < P.h) (hg : P.g = P.a * P.h + 1) {F : Type}
    {ops : FloatOps F} (h : Reachable ops P st) : Inv P (Dragonfly.wiring P) st := by
  induction h with
  | wiring => exact Inv.wiring hh hg
  | change rankID2nodeIndex flows rand _ ih =>
    rcases incrementalChange_spec ha rankID2nodeIndex flows rand _ with heq | ⟨c, hc, heq⟩
    · rw [heq]
      exact ih
    · rw [heq]
      exact ih.linkReconfiguration ha hc

/-- After any changes every switch has as many links to other groups up as it was
wired with, `linkDeviceState` is the state of both interfaces of each link, and
`groupLinkNumberMap` is symmetric, not negative and the number of links up between
two groups. -/
theorem reconfiguration_preserves {k : Nat} (hk : 1 ≤ k) {F : Type} (ops : FloatOps F)
    {st : DragonflyTopology} (h : Reachable ops (params k) st) :
    (∀ s, s < (params k).switchCount →
      interGroupDegree (params k) st s = interGroupDegree (params k) (wiring (params k)) s) ∧
    (∀ s t info, st.backgroundLinkMap s t = some info →
      st.linkDeviceState info.device1 info.device2 = st.isUp info.device1 ∧
      st.linkDeviceState info.device1 info.device2 = st.isUp info.device2) ∧
    ∀ i j, i < (params k).g → j < (params k).g →
      st.groupLinkNumberMap i j = st.groupLinkNumberMap j i ∧
      0 ≤ st.groupLinkNumberMap i j ∧
      (i ≠ j → st.groupLinkNumberMap i j =
        between st.linkUp ((params k).group i) ((params k).group j)) := by
  have ha : 0 < (params k).a := Nat.mul_pos (by decide) hk
  have hinv : Inv (params k) (wiring (params k)) st := Inv.reachable ha hk rfl h
  refine ⟨fun s _ => hinv.degree s, hinv.links.state, fun i j hi hj => ?_⟩
  by_cases hne : i = j
  · subst hne
    exact ⟨rfl, (hinv.self i).ge, fun hne => absurd rfl hne⟩
  · have hij := hinv.numbers i j hi hj hne
    have hji := hinv.numbers j i hj hi (Ne.symm hne)
    refine ⟨?_, ?_, fun _ => hij⟩
    · rw [hij, hji, between_comm hinv.links.linkUp_symm]
    · rw [hij]
      exact Int.natCast_nonneg _

/-- `float` with whole numbers only. -/
def intOps : FloatOps Int where
  ofInt n := n
  add := (· + ·)
  sub := (· - ·)
  div := (· / ·)
  lt x y := x < y
  eq x y := x = y
  trunc n := n

/-- A flow between the first two groups of the default topology, `k = 2`, leaves
switch 5 its links. -/
theorem reconfiguration_preserves_default :
    interGroupDegree (params 2)
      (incrementalChange intOps (params 2) (fun rank => rank) [(0, 8)] (fun n => n)
        (wiring (params 2))).1 5 = interGroupDegree (params 2) (wiring (params 2)) 5 :=
  (reconfiguration_preserves (k := 2) (by decide) intOps (.change _ _ _ .wiring)).1 5 (by decide)

end

end MoeJit.Dragonfly
