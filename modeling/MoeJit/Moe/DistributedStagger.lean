import MoeJit.Moe.DistributedOrder

/-!
# The stagger of releases at a leaf

`FastControlPath` spaces the release times of the events that it commits to one start slot. The
count starts anew in every pass, and a late destination phase overrides it. So a run keeps the
stagger when no pass takes a start slot that is taken, and events that share one have no destination
phase behind the first offset (`staggered_of_apart`).
-/

namespace MoeJit.DistributedAging

open Words StdSort AssocMap FirstFit List

variable {n : Nat} {cfg : Config} {sort : Sorter EventLess} {now : Time}

/-! ## 1. Release times -/

/-- `destPhaseTime` of an event in slot `s`. -/
def destPhaseTime (lb : LeafBroker) (s : Slot) (e : LocalEvent) : Time :=
  e.foot.entries.foldl (fun time kv =>
    match lb.grantedPhase kv.1 s with
    | none => time
    | some phase => if time < phase then phase else time) 0

/-- `slotStartTime`. -/
def slotStartTime (s : Slot) : Time := i64 (s * slotLength.toNat)

theorem releaseTimeOf_eq (lb : LeafBroker) (s : Slot) (k : Nat) (e : LocalEvent) :
    releaseTimeOf lb s k e = max (max e.tPred (slotStartTime s + (50000 + k * localGap)))
      (slotStartTime s + destPhaseTime lb s e) := by
  simp only [max_def_lt]
  rfl

variable {lb : LeafBroker} {e : LocalEvent}

/-- Where no destination phase is behind the first offset, the release time is the predicted time
or that of the place in the bucket. -/
theorem releaseTimeOf_short {s : Slot} (h : destPhaseTime lb s e ≤ 50000) (k : Nat) :
    releaseTimeOf lb s k e = e.tPred ∨
      releaseTimeOf lb s k e = slotStartTime s + (50000 + k * localGap) := by
  have hgap : 0 ≤ (k : Int) * localGap := mul_nonneg (Int.natCast_nonneg k) (by decide)
  have hle : slotStartTime s + destPhaseTime lb s e ≤
      max e.tPred (slotStartTime s + (50000 + k * localGap)) :=
    le_max_of_le_right (by linarith)
  rw [releaseTimeOf_eq, max_eq_left hle]
  exact (max_choice _ _).imp id id

/-- Two events of a start slot that are committed have release times apart, or one of them waits
for its predicted time. -/
def Spaced (e e' : LocalEvent) : Prop :=
  e.releaseTime = e.tPred ∨ e'.releaseTime = e'.tPred ∨
    localGap ≤ |e.releaseTime - e'.releaseTime|

theorem localGap_le {k k' : Nat} (h : k ≠ k') (t : Time) :
    localGap ≤ |(t + (50000 + k * localGap)) - (t + (50000 + k' * localGap))| := by
  have hdiff : (t + (50000 + k * localGap)) - (t + (50000 + k' * localGap)) =
      ((k : Int) - k') * localGap := by ring
  have hone : 1 ≤ |(k : Int) - k'| := Int.one_le_abs (sub_ne_zero.mpr (Int.natCast_inj.not.mpr h))
  rw [hdiff, abs_mul, abs_of_pos (by decide : 0 < localGap)]
  exact le_mul_of_one_le_left (by decide) hone

/-- All events committed at a leaf to one start slot are spaced. -/
def Staggered (lb : LeafBroker) : Prop :=
  ∀ id id' e e' s, lb.localEvents.lookup id = some e → lb.localEvents.lookup id' = some e' →
    id ≠ id' → e.committed = true → e'.committed = true → e.start = some s → e'.start = some s →
    Spaced e e'

/-! ## 2. The loop over the eligible events -/

/-- A start slot that an event of the leaf is committed to. -/
def Taken (lb : LeafBroker) (s : Slot) : Prop :=
  ∃ id e, lb.localEvents.lookup id = some e ∧ e.committed = true ∧ e.start = some s

/-- In each turn of the loop, the start slot that is found for the event is not taken before the
pass. If the pass has put other events there, neither they nor this one have a destination phase
behind the first offset. -/
def TurnsApart (cfg : Config) (currentSlot : Slot) (lb : LeafBroker) :
    List LocalEvent → LeafBroker × List (Slot × LocalEvent) → Prop
  | [], _ => True
  | e :: rest, st =>
    (∀ s ∈ findSlot cfg currentSlot st.1 e, ¬Taken lb s ∧ ∀ p ∈ st.2, p.1 = s →
      destPhaseTime lb s p.2 ≤ 50000 ∧ destPhaseTime lb s e ≤ 50000) ∧
    TurnsApart cfg currentSlot lb rest (placeEvent cfg currentSlot st e)

/-- All turns of a pass of `FastControlPath` are like this. -/
def PassApart (cfg : Config) (sort : Sorter EventLess) (now : Time) (lb : LeafBroker) : Prop :=
  TurnsApart cfg (slotOf now) lb (sort.run (commitEvents cfg now lb))
    (lb.modifyAll (prioritize cfg now), [])

/-- What two events in the buckets have to do with each other. -/
def SharedShort (lb : LeafBroker) (p q : Slot × LocalEvent) : Prop :=
  p.1 = q.1 → destPhaseTime lb p.1 p.2 ≤ 50000 ∧ destPhaseTime lb q.1 q.2 ≤ 50000

instance (lb : LeafBroker) : Std.Symm (SharedShort lb) where
  symm _ _ h heq := (h heq.symm).symm

theorem placeEvent_eq (currentSlot : Slot) (st : LeafBroker × List (Slot × LocalEvent))
    (e : LocalEvent) : placeEvent cfg currentSlot st e =
      match findSlot cfg currentSlot st.1 e with
      | none => st
      | some s => (placed cfg st.1 e s, st.2 ++ [(s, e)]) := rfl

theorem turnsApart_buckets {currentSlot : Slot} {order : List LocalEvent}
    {st : LeafBroker × List (Slot × LocalEvent)} (h : TurnsApart cfg currentSlot lb order st)
    (hfree : ∀ p ∈ st.2, ¬Taken lb p.1) (hshort : st.2.Pairwise (SharedShort lb)) :
    (∀ p ∈ (order.foldl (placeEvent cfg currentSlot) st).2, ¬Taken lb p.1) ∧
    (order.foldl (placeEvent cfg currentSlot) st).2.Pairwise (SharedShort lb) := by
  induction order generalizing st with
  | nil => exact ⟨hfree, hshort⟩
  | cons e order ih =>
    obtain ⟨hturn, hrest⟩ := h
    rw [placeEvent_eq] at hrest
    rw [foldl_cons, placeEvent_eq]
    split at hrest
    · exact ih hrest hfree hshort
    · next s hfound =>
      obtain ⟨hnot, hothers⟩ := hturn s hfound
      refine ih hrest ?_ ?_
      · exact forall_mem_append.mpr ⟨hfree, forall_mem_singleton.mpr hnot⟩
      · refine pairwise_append.mpr ⟨hshort, pairwise_singleton _ _, fun p hp q hq heq => ?_⟩
        obtain rfl := mem_singleton.mp hq
        obtain ⟨hp', he⟩ := hothers p hp heq
        exact ⟨heq.symm ▸ hp', he⟩

theorem grantedPhase_foldl_placeEvent (cfg : Config) (currentSlot : Slot) (order : List LocalEvent)
    (st : LeafBroker × List (Slot × LocalEvent)) :
    (order.foldl (placeEvent cfg currentSlot) st).1.grantedPhase = st.1.grantedPhase := by
  induction order generalizing st with
  | nil => rfl
  | cons e order ih =>
    rw [foldl_cons, ih, placeEvent_eq]
    split
    · rfl
    · rw [placed, foldl_reserveSlot]
      rfl

/-! ## 3. A pass -/

/-- An event that a pass leaves where it was. -/
structure SameTimes (e e' : LocalEvent) : Prop where
  start : e'.start = e.start
  committed : e'.committed = e.committed
  tPred : e'.tPred = e.tPred
  releaseTime : e'.releaseTime = e.releaseTime

/-- An event that a pass commits, by its place in a bucket. -/
def CommittedFrom (sort : Sorter EventLess) (lb : LeafBroker) (buckets : List (Slot × LocalEvent))
    (id : EventId) (e' : LocalEvent) : Prop :=
  ∃ s k e, (e, k) ∈ (sort.run ((buckets.filter (·.1 = s)).map (·.2))).zipIdx ∧ e.eventId = id ∧
    e'.start = some s ∧ e'.tPred = e.tPred ∧ e'.releaseTime = releaseTimeOf lb s k e

/-- The buckets of a pass. -/
def bucketsOf (cfg : Config) (sort : Sorter EventLess) (now : Time) (lb : LeafBroker) :
    List (Slot × LocalEvent) :=
  ((sort.run (commitEvents cfg now lb)).foldl (placeEvent cfg (slotOf now))
    (lb.modifyAll (prioritize cfg now), [])).2

theorem fastControlPath_times (sort : Sorter EventLess) (now : Time) (h : Balanced cfg lb)
    (hs : Settled lb) : Changed (fun id e e' => SameTimes e e' ∨
      CommittedFrom sort lb (bucketsOf cfg sort now lb) id e') lb.localEvents
        (fastControlPath cfg sort now lb).localEvents := by
  have hlb₁ : lb.modifyAll (fun e =>
      if eligible now e then { e with prio := priority cfg alphaAge e } else e) =
    lb.modifyAll (prioritize cfg now) := rfl
  obtain ⟨hbal₁, hsettled₁, hprio⟩ := prioritize_spec h hs hlb₁
  obtain ⟨hnodup, horder⟩ := eligible_order sort now hbal₁ hsettled₁
  have hphase := grantedPhase_foldl_placeEvent cfg (slotOf now)
    (sort.run (commitEvents cfg now lb)) (lb.modifyAll (prioritize cfg now), [])
  generalize hrun : (sort.run (commitEvents cfg now lb)).foldl (placeEvent cfg (slotOf now))
    (lb.modifyAll (prioritize cfg now), []) = st at hphase
  obtain ⟨lb₂, buckets⟩ := st
  have hbuckets : bucketsOf cfg sort now lb = buckets := by rw [bucketsOf, hrun]
  obtain ⟨new, hnew, hin, hplaced⟩ :=
    foldl_placeEvent_events hnodup (fun e he => (horder e he).1) hrun
  obtain rfl : buckets = new := hnew
  obtain ⟨events, heq, hcommits⟩ := foldl_commitEvent_times (commits sort lb₂ buckets) lb₂
  have hpath : fastControlPath cfg sort now lb = (commits sort lb₂ buckets).foldl commitEvent lb₂ :=
    congrArg (fun st : LeafBroker × List (Slot × LocalEvent) =>
      (commits sort st.1 st.2).foldl commitEvent st.1) hrun
  have hrelease : ∀ s k e, releaseTimeOf lb₂ s k e = releaseTimeOf lb s k e := fun s k e => by
    rw [releaseTimeOf, hphase]
    rfl
  rw [hpath, heq, hbuckets]
  refine (hprio.trans hplaced (T := fun id e e₂ => ∃ e₁, Prioritized now id e e₁ ∧
    PlacedAt buckets id e₁ e₂) fun id e e₁ e₂ h₁ h₂ => ⟨e₁, h₁, h₂⟩).trans hcommits
      fun id e e₂ e₃ h₂ h₃ => ?_
  obtain ⟨e₁, ⟨prio, rfl, -⟩, hplace⟩ := h₂
  rcases h₃ with ⟨rfl, hno⟩ | ⟨t, ht, rfl⟩
  · -- not committed, so not in a bucket
    rcases hplace with ⟨rfl, -⟩ | ⟨s, -, hmem, hid⟩
    · exact .inl ⟨rfl, rfl, rfl, rfl⟩
    · exact absurd (mem_commits.mpr (mem_map.mpr ⟨_, hmem, hid⟩)) hno
  · obtain ⟨s', k, e', hmem', hid', rfl⟩ := commits_index ht
    rcases hplace with ⟨-, hno⟩ | ⟨s, rfl, hmem, hid⟩
    · exact absurd (mem_commits.mp (mem_map_of_mem ht)) hno
    -- the place that gave the release time is the one of the event
    · have hsame : (s', e') = (s, { e with prio := prio }) :=
        inj_on_of_nodup_map hin.nodup (mem_bucket.mp (fst_mem_of_mem_zipIdx hmem')) hmem
          (hid'.trans hid.symm)
      obtain ⟨rfl, rfl⟩ := Prod.mk.inj hsame
      exact .inr ⟨s', k, _, hmem', hid, rfl, rfl, hrelease _ _ _⟩

theorem spaced_of_bucket {buckets : List (Slot × LocalEvent)}
    (hshort : buckets.Pairwise (SharedShort lb)) {id id' : EventId} {e' : LocalEvent} {s : Slot}
    (h : CommittedFrom sort lb buckets id e) (h' : CommittedFrom sort lb buckets id' e')
    (hid : id ≠ id') (hstart : e.start = some s) (hstart' : e'.start = some s) : Spaced e e' := by
  obtain ⟨s₁, k, e₁, hmem, rfl, hs₁, htime, hrelease⟩ := h
  obtain ⟨s₂, k', e₂, hmem', rfl, hs₂, htime', hrelease'⟩ := h'
  obtain rfl : s₁ = s := Option.some.inj (hs₁.symm.trans hstart)
  obtain rfl : s₂ = s₁ := Option.some.inj (hs₂.symm.trans hstart')
  have hne : e₁ ≠ e₂ := fun heq => hid (congrArg LocalEvent.eventId heq)
  have hplaces : k ≠ k' := fun heq => hne (by
    have hget := mem_zipIdx_iff_getElem?.mp hmem
    have hget' := mem_zipIdx_iff_getElem?.mp hmem'
    rw [← heq] at hget'
    exact Option.some.inj (hget.symm.trans hget'))
  obtain ⟨hphase, hphase'⟩ := hshort.forall (mem_bucket.mp (fst_mem_of_mem_zipIdx hmem))
    (mem_bucket.mp (fst_mem_of_mem_zipIdx hmem')) (fun heq => hne (Prod.mk.inj heq).2) rfl
  rcases releaseTimeOf_short hphase k with hpred | hplace
  · exact .inl (by rw [hrelease, hpred, htime])
  rcases releaseTimeOf_short hphase' k' with hpred' | hplace'
  · exact .inr (.inl (by rw [hrelease', hpred', htime']))
  · rw [Spaced, hrelease, hplace, hrelease', hplace']
    exact .inr (.inr (localGap_le hplaces _))

theorem fastControlPath_staggered (h : Balanced cfg lb) (hs : Settled lb)
    (hapart : PassApart cfg sort now lb) (hstag : Staggered lb) :
    Staggered (fastControlPath cfg sort now lb) := by
  obtain ⟨hfree, hshort⟩ : (∀ p ∈ bucketsOf cfg sort now lb, ¬Taken lb p.1) ∧
      (bucketsOf cfg sort now lb).Pairwise (SharedShort lb) :=
    turnsApart_buckets hapart (fun p hp => absurd hp not_mem_nil) .nil
  have htimes := fastControlPath_times sort now h hs
  -- an event that was committed before has no part in the buckets
  have hapart' : ∀ {id id' e₀ e e' s}, lb.localEvents.lookup id = some e₀ → SameTimes e₀ e →
      e.committed = true → e.start = some s → e'.start = some s →
      ¬CommittedFrom sort lb (bucketsOf cfg sort now lb) id' e' := by
    rintro id id' e₀ e e' s he₀ hsame hcomm hstart hstart' ⟨s', k, e₁, hmem, -, hs', -⟩
    obtain rfl : s' = s := Option.some.inj (hs'.symm.trans hstart')
    exact hfree (s', e₁) (mem_bucket.mp (fst_mem_of_mem_zipIdx hmem))
      ⟨id, e₀, he₀, hsame.committed ▸ hcomm, hsame.start ▸ hstart⟩
  intro id id' e e' s he he' hid hcomm hcomm' hstart hstart'
  obtain ⟨e₀, he₀, hcase⟩ := htimes.lookup he
  obtain ⟨e₀', he₀', hcase'⟩ := htimes.lookup he'
  rcases hcase with hsame | hnew <;> rcases hcase' with hsame' | hnew'
  · have hspaced := hstag id id' e₀ e₀' s he₀ he₀' hid (hsame.committed ▸ hcomm)
      (hsame'.committed ▸ hcomm') (hsame.start ▸ hstart) (hsame'.start ▸ hstart')
    rwa [Spaced, hsame.releaseTime, hsame.tPred, hsame'.releaseTime, hsame'.tPred]
  · exact absurd hnew' (hapart' he₀ hsame hcomm hstart hstart')
  · exact absurd hnew (hapart' he₀' hsame' hcomm' hstart' hstart)
  · exact spaced_of_bucket hshort hnew hnew' hid hstart hstart'

/-! ## 4. Runs -/

theorem Staggered.register (h : Staggered lb) (hcomm : e.committed = false) :
    Staggered (register lb e) := by
  have hold : ∀ {id e₁}, (DistributedAging.register lb e).localEvents.lookup id = some e₁ →
      e₁.committed = true → lb.localEvents.lookup id = some e₁ := fun {id e₁} hlook hc => by
    rcases eq_or_ne id e.eventId with rfl | hne
    · obtain rfl : e = e₁ := Option.some.inj ((AList.lookup_insert _).symm.trans hlook)
      rw [hcomm] at hc
      cases hc
    · exact (AList.lookup_insert_ne hne).symm.trans hlook
  intro id id' e₁ e₂ s he₁ he₂ hid hc₁ hc₂
  exact h id id' e₁ e₂ s (hold he₁ hc₁) (hold he₂ hc₂) hid hc₁ hc₂

theorem beforeCommits_ledger (sort : Sorter EventLess) (now : Time) {st : State n}
    (h : Ledger cfg st.brokers) : Ledger cfg (beforeCommits cfg sort now st) :=
  foldl_keeps (P := Ledger cfg) (fun _ d hled => grantQuota_ledger hled d) _ (foldl_keeps
    (P := fun st' : (Fin n → LeafBroker) × DestQueues n => Ledger cfg st'.1)
    (fun _ i hled => requestPhase_ledger hled i) _ h)

theorem beforeCommits_staggered {st : State n} {i : Fin n} (h : Staggered (st.brokers i)) :
    Staggered (beforeCommits cfg sort now st i) := by
  have hsame : ∀ {id e'}, (beforeCommits cfg sort now st i).localEvents.lookup id = some e' →
      ∃ e, (st.brokers i).localEvents.lookup id = some e ∧ SameTimes e e' := fun hlook => by
    obtain ⟨e, he, x, rfl⟩ := (beforeCommits_events st i).lookup hlook
    refine ⟨e, he, ?_⟩
    unfold observe
    split <;> exact ⟨rfl, rfl, rfl, rfl⟩
  intro id id' e₁ e₂ s he₁ he₂ hid hc₁ hc₂ hs₁ hs₂
  obtain ⟨e, he, hsame₁⟩ := hsame he₁
  obtain ⟨e', he', hsame₂⟩ := hsame he₂
  have hspaced := h id id' e e' s he he' hid (hsame₁.committed ▸ hc₁) (hsame₂.committed ▸ hc₂)
    (hsame₁.start ▸ hs₁) (hsame₂.start ▸ hs₂)
  rwa [Spaced, hsame₁.releaseTime, hsame₁.tPred, hsame₂.releaseTime, hsame₂.tPred]

/-- A run whose inputs all satisfy `guard` in the state in which they come. -/
abbrev GuardedRun (cfg : Config) (sort : Sorter EventLess)
    (guard : World cfg → Input → Prop) : World cfg → World cfg → Prop :=
  Relation.ReflTransGen fun w w' => ∃ input, guard w input ∧ Step cfg sort w input w'

theorem GuardedRun.reachable {guard : World cfg → Input → Prop} {w : World cfg}
    (h : GuardedRun cfg sort guard {} w) : Reachable cfg sort w := by
  induction h with
  | refl => exact .init
  | tail _ hstep ih =>
    obtain ⟨input, -, hstep⟩ := hstep
    exact Run.reachable (P := fun _ => True) (.single ⟨input, trivial, hstep⟩) ih

/-- The turns of all passes that an input starts are apart. -/
def Apart (cfg : Config) (sort : Sorter EventLess) (w : World cfg) : Input → Prop
  | .call rank task now => ∀ i : Fin cfg.numLeafs, i.val = u32 (rank / cfg.k) →
      (w.state.brokers i).localEvents.lookup (eventIdOf rank task) = none →
      PassApart cfg sort now
        (register (w.state.brokers i) (newEvent cfg (eventIdOf rank task) rank task now))
  | .epoch now => ∀ i, PassApart cfg sort now (beforeCommits cfg sort now w.state i)

theorem step_staggered {w w' : World cfg} {input : Input} (hled : Ledger cfg w.state.brokers)
    (hapart : Apart cfg sort w input) (hstep : Step cfg sort w input w')
    (h : ∀ i, Staggered (w.state.brokers i)) (i : Fin cfg.numLeafs) :
    Staggered (w'.state.brokers i) := by
  cases hstep with
  | @call rank task now st ret _ _ hcall =>
    obtain ⟨j, hj, ⟨-, -, heq⟩ | ⟨hnone, heq⟩⟩ := checkAdmission_brokers hcall
    · rw [heq]
      exact h i
    · rw [heq, Function.update_apply]
      split
      · obtain ⟨hbal, hs, -⟩ := register_spec
          (e := newEvent cfg (eventIdOf rank task) rank task now) (hled.balanced j)
          (hled.settled j) (AList.lookup_eq_none.mp hnone) rfl rfl
        exact fastControlPath_staggered hbal hs (hapart j hj hnone) ((h j).register rfl)
      · exact h i
  | @epoch now _ =>
    have hled' := beforeCommits_ledger sort now hled
    show Staggered ((onEpochTimer cfg sort now w.state).brokers i)
    rw [onEpochTimer_brokers, foldl_update_self _ (nodup_finRange _), if_pos (mem_finRange i)]
    exact fastControlPath_staggered (hled'.balanced i) (hled'.settled i) (hapart i)
      (beforeCommits_staggered (h i))

/-- In every run whose passes are apart, all events of a start slot at a leaf are spaced. -/
theorem staggered_of_apart {w : World cfg} (h : GuardedRun cfg sort (Apart cfg sort) {} w)
    (i : Fin cfg.numLeafs) : Staggered (w.state.brokers i) := by
  induction h generalizing i with
  | refl => exact fun id id' e e' s he => nomatch he
  | tail hrun hstep ih =>
    obtain ⟨input, hapart, hstep⟩ := hstep
    exact step_staggered (reachable_ledger (GuardedRun.reachable hrun)) hapart hstep ih i

/-! ## 5. Two events -/

instance (lb : LeafBroker) (s : Slot) : Decidable (Taken lb s) :=
  decidable_of_iff (∃ kv ∈ lb.localEvents.entries, kv.2.committed = true ∧ kv.2.start = some s)
    ⟨fun ⟨kv, hmem, h⟩ => ⟨kv.1, kv.2, AList.mem_lookup_iff.mpr hmem, h⟩,
      fun ⟨id, e, hlook, h⟩ => ⟨⟨id, e⟩, AList.mem_lookup_iff.mp hlook, h⟩⟩

/-- `TurnsApart` can be computed. -/
def decidableTurnsApart (cfg : Config) (currentSlot : Slot) (lb : LeafBroker) :
    ∀ order st, Decidable (TurnsApart cfg currentSlot lb order st)
  | [], _ => isTrue trivial
  | e :: rest, st =>
    have := decidableTurnsApart cfg currentSlot lb rest (placeEvent cfg currentSlot st e)
    inferInstanceAs (Decidable (_ ∧ _))

instance (cfg : Config) (sort : Sorter EventLess) (now : Time) (lb : LeafBroker) :
    Decidable (PassApart cfg sort now lb) :=
  decidableTurnsApart _ _ _ _ _

/-- The task of rank 0 with this number, which sends five bytes to leaf 1. -/
def five (taskId : TaskId) : MoeTask := taskTo taskId ((∅ : FlowMap).insert 1 5)

/-- The state after it has reported two of them. -/
@[irreducible] def pair : State rivalsCfg.numLeafs := reported 0 (five 2) (reported 0 (five 1) {})

/-- The first epoch commits both to one slot, one behind the other. -/
theorem staggered_of_apart_pair :
    GuardedRun rivalsCfg rivalsSort (Apart rivalsCfg rivalsSort) {}
      ⟨onEpochTimer rivalsCfg rivalsSort 1000000 pair, 1000000⟩ ∧
    (∀ i, Staggered ((onEpochTimer rivalsCfg rivalsSort 1000000 pair).brokers i)) ∧
    [1, 2].map (fun id => (((onEpochTimer rivalsCfg rivalsSort 1000000 pair).brokers
        ⟨0, by decide⟩).localEvents.lookup id).map fun e => (e.committed, e.start, e.releaseTime)) =
      [some (true, some 100, 1070000), some (true, some 100, 1050000)] := by
  obtain ⟨ret, hcall, htimer⟩ : ∃ ret, checkAdmission rivalsCfg rivalsSort 0 (five 1) 0 {} =
    some (reported 0 (five 1) {}, ret) ∧ _ := checkAdmission_reported _ {} (by decide)
  obtain ⟨ret', hcall', htimer'⟩ : ∃ ret, checkAdmission rivalsCfg rivalsSort 0 (five 2) 0
    (reported 0 (five 1) {}) = some (reported 0 (five 2) (reported 0 (five 1) {}), ret) ∧ _ :=
    checkAdmission_reported _ _ (by decide)
  have hfirst : Apart rivalsCfg rivalsSort {} (.call 0 (five 1) 0) := by
    unfold Apart
    decide +kernel
  have hsecond : Apart rivalsCfg rivalsSort ⟨reported 0 (five 1) {}, 0⟩ (.call 0 (five 2) 0) := by
    unfold Apart
    decide +kernel
  have hepoch : Apart rivalsCfg rivalsSort ⟨pair, 0⟩ (.epoch 1000000) := by
    unfold Apart
    decide +kernel
  have hrun : GuardedRun rivalsCfg rivalsSort (Apart rivalsCfg rivalsSort) {}
      ⟨onEpochTimer rivalsCfg rivalsSort 1000000 pair, 1000000⟩ := by
    refine .tail (.tail (.single ⟨_, hfirst, .call (le_refl 0) (fun t ht => nomatch ht) hcall⟩)
      ⟨_, hsecond, .call (le_refl 0) ?_ hcall'⟩) ?_
    · rw [htimer]
      decide
    · rw [← pair]
      exact ⟨_, hepoch, .epoch (by rw [pair, htimer', htimer]; rfl)⟩
  exact ⟨hrun, staggered_of_apart hrun, by decide +kernel⟩

/-- The state after rank 0 has reported two tasks that send nothing. -/
@[irreducible] def twice : State rivalsCfg.numLeafs :=
  reported 0 (taskTo 2 ∅) (reported 0 (taskTo 1 ∅) {})

/-- Each report starts a pass, and both passes commit their event to slot 0, at offset 0. -/
theorem not_staggered_twice : Reachable rivalsCfg rivalsSort ⟨twice, 0⟩ ∧
    ¬Staggered (twice.brokers ⟨0, by decide⟩) := by
  constructor
  · have honce : Run rivalsCfg rivalsSort (fun _ => True) {} ⟨reported 0 (taskTo 1 ∅) {}, 0⟩ ∧
        (reported 0 (taskTo 1 ∅) {}).timer = some epochLength :=
      run_reported .refl (le_refl _) (by decide) trivial
    unfold twice
    exact Run.reachable
      (run_reported honce.1 (by rw [honce.2]; decide) (by decide) trivial).1 .init
  · intro hstag
    have htimes : ∀ id ∈ [1, 2], ((twice.brokers ⟨0, by decide⟩).localEvents.lookup id).map
        (fun e => (e.committed, e.start, e.releaseTime, e.tPred)) =
          some (true, some 0, 50000, 0) := by decide +kernel
    obtain ⟨e, he, htuple⟩ := Option.map_eq_some_iff.mp (htimes 1 (by decide))
    obtain ⟨e', he', htuple'⟩ := Option.map_eq_some_iff.mp (htimes 2 (by decide))
    simp only [Prod.mk.injEq] at htuple htuple'
    obtain ⟨hcomm, hstart, hrelease, hpred⟩ := htuple
    obtain ⟨hcomm', hstart', hrelease', hpred'⟩ := htuple'
    have hspaced := hstag 1 2 e e' 0 he he' (by decide) hcomm hcomm' hstart hstart'
    rw [Spaced, hrelease, hpred, hrelease', hpred'] at hspaced
    exact absurd hspaced (by decide)

end MoeJit.DistributedAging
