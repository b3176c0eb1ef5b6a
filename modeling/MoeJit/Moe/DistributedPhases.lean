import MoeJit.Moe.DistributedStagger
import MoeJit.Moe.SlotSearch

/-!
# Destination phases

A destination leaf numbers the source leaves that it grants a start slot, and each of them keeps its
number as its phase there. The numbers begin anew in every epoch. So no two leaves hold the same
phase for a slot as long as no epoch begins to number a slot for which a leaf holds one that this
epoch does not replace at once (`phases_of_fresh`).
-/

namespace MoeJit.DistributedAging

open Words StdSort AssocMap FirstFit Function

variable {n : Nat} {cfg : Config} {sort : Sorter EventLess} {now : Time}

/-! ## 1. The numbers of an epoch -/

/-- The phases that the source leaves hold for the slots of one destination: multiples of the gap,
different for different leaves. -/
structure Phased (held : Fin n → Slot → Option Time) : Prop where
  multiple : ∀ a s p, held a s = some p → ∃ k : Nat, p = k * phaseGap
  distinct : ∀ a b s p, held a s = some p → held b s = some p → a = b

/-- The phases granted in an epoch so far, with the next one for each slot, over those held before
it. -/
structure Numbered (held newPhase : Fin n → Slot → Option Time) (nextPhase : Slot → Option Time) :
    Prop where
  counted : ∀ s, ∃ m : Nat, (nextPhase s).getD 0 = m * phaseGap ∧
    ∀ a p, newPhase a s = some p → ∃ k < m, p = k * phaseGap
  distinct : ∀ a b s p, newPhase a s = some p → newPhase b s = some p → a = b
  /-- Once a slot has a new phase, no old one is left there. -/
  renewed : ∀ a b s, (newPhase b s).isSome → (held a s).isSome → (newPhase a s).isSome

theorem numbered_start (held : Fin n → Slot → Option Time) :
    Numbered held (fun _ _ => none) (fun _ => none) where
  counted _ := ⟨0, by simp, fun _ _ h => nomatch h⟩
  distinct _ _ _ _ h := nomatch h
  renewed _ _ _ h := nomatch h

theorem phaseGap_mul_inj {k m : Nat} (h : (k : Time) * phaseGap = m * phaseGap) : k = m :=
  Int.natCast_inj.mp (mul_right_cancel₀ (by decide : phaseGap ≠ 0) h)

/-- The first grant of an epoch at a slot goes to a leaf, and no other one holds a phase there. -/
def FreshAt (held : Fin n → Slot → Option Time) (src : Fin n) (s : Slot) (g : Grants n) : Prop :=
  (∀ a, g.newPhase a s = none) → ∀ b, b ≠ src → held b s = none

variable {held : Fin n → Slot → Option Time} {g : Grants n} {queues : DestQueues n}
  {brokers : Fin n → LeafBroker}

theorem Numbered.grantPhase (h : Numbered held g.newPhase g.lb.nextPhase) {src : Fin n}
    {start : Slot} (hfresh : FreshAt held src start g) :
    Numbered held (grantPhase src start g).newPhase (grantPhase src start g).lb.nextPhase := by
  rw [DistributedAging.grantPhase]
  split
  · exact h
  next hnone =>
  obtain ⟨m, hm, hbelow⟩ := h.counted start
  simp only [hm]
  generalize hnew : Function.update g.newPhase src
    (Function.update (g.newPhase src) start (some ((m : Time) * phaseGap))) = new
  have hself : new src start = some (m * phaseGap) := by
    rw [← hnew, update_self, update_self]
  have hother : ∀ a s, ¬(a = src ∧ s = start) → new a s = g.newPhase a s := fun a s hne => by
    rw [← hnew, update_apply]
    split
    · next ha => rw [update_of_ne fun hs => hne ⟨ha, hs⟩, ha]
    · rfl
  refine ⟨fun s => ?_, fun a b s p ha hb => ?_, fun a b s hb ha => ?_⟩
  · rcases eq_or_ne s start with rfl | hne
    · refine ⟨m + 1, ?_, fun a p hp => ?_⟩
      · rw [update_self, Option.getD_some]
        push_cast
        ring
      · by_cases hat : a = src
        · subst hat
          rw [hself] at hp
          exact ⟨m, Nat.lt_succ_self m, (Option.some.inj hp).symm⟩
        · rw [hother a s fun hat' => hat hat'.1] at hp
          obtain ⟨k, hk, hpk⟩ := hbelow a p hp
          exact ⟨k, Nat.lt_succ_of_lt hk, hpk⟩
    · rw [update_of_ne hne]
      obtain ⟨m', hm', hbelow'⟩ := h.counted s
      exact ⟨m', hm', fun a p hp => hbelow' a p (hother a s (fun hat => hne hat.2) ▸ hp)⟩
  · -- the new number is above those given before
    have habove : ∀ c, c ≠ src → new c start ≠ some (m * phaseGap) := fun c hc hp => by
      rw [hother c start fun hat => hc hat.1] at hp
      obtain ⟨k, hk, hpk⟩ := hbelow c _ hp
      exact hk.ne' (phaseGap_mul_inj hpk)
    by_cases hs : s = start
    · subst hs
      by_cases hasrc : a = src
      · subst hasrc
        rw [hself] at ha
        by_contra hne
        exact habove b (Ne.symm hne) (hb.trans ha.symm)
      · by_cases hbsrc : b = src
        · subst hbsrc
          rw [hself] at hb
          exact absurd (ha.trans hb.symm) (habove a hasrc)
        · rw [hother a s fun hat => hasrc hat.1] at ha
          rw [hother b s fun hat => hbsrc hat.1] at hb
          exact h.distinct a b s p ha hb
    · rw [hother a s fun hat => hs hat.2] at ha
      rw [hother b s fun hat => hs hat.2] at hb
      exact h.distinct a b s p ha hb
  · by_cases hs : s = start
    · subst hs
      by_cases hat : a = src
      · rw [hat, hself]
        rfl
      rw [hother a s fun hat' => hat hat'.1]
      by_cases hfirst : ∀ c, g.newPhase c s = none
      · rw [hfresh hfirst a hat] at ha
        cases ha
      · obtain ⟨c, hc⟩ := not_forall.mp hfirst
        exact h.renewed a c s (Option.isSome_iff_ne_none.mpr hc) ha
    · rw [hother b s fun hat => hs hat.2] at hb
      rw [hother a s fun hat => hs hat.2]
      exact h.renewed a b s hb ha

theorem Numbered.serve (h : Numbered held g.newPhase g.lb.nextPhase) {src : Fin n} {req : Request n}
    (hfresh : ∀ s ∈ grantStart cfg g.provisionalDstFree req, FreshAt held src s g) :
    Numbered held (serve cfg src req g).newPhase (serve cfg src req g).lb.nextPhase := by
  rw [serve_eq]
  split
  · exact h
  · next start hfound =>
    have hfresh' := hfresh start hfound
    generalize hg : (window start (u64 (start + req.span))).foldl (grantSlot cfg src req) g = g'
    rw [foldl_grantSlot] at hg
    have hnew : g'.newPhase = g.newPhase := by rw [← hg]
    have hnext : g'.lb.nextPhase = g.lb.nextPhase := by rw [← hg]
    rw [← hnew, ← hnext] at h
    rw [FreshAt, ← hnew] at hfresh'
    exact h.grantPhase hfresh'

/-- Each request that is served, and that is the first of the epoch for the slot it gets, finds no
other leaf with a phase there. -/
def ServesFresh (cfg : Config) (held : Fin n → Slot → Option Time) :
    Nat → (Fin n → List (Request n)) → Grants n → Prop
  | 0, _, _ => True
  | fuel + 1, queues, g =>
    match bestHead queues with
    | none => True
    | some (src, req) =>
      (∀ s ∈ grantStart cfg g.provisionalDstFree req, FreshAt held src s g) ∧
      ServesFresh cfg held fuel (Function.update queues src (queues src).tail)
        (serve cfg src req g)

theorem arbitrate_numbered {fuel : Nat} {queues : Fin n → List (Request n)}
    (hfresh : ServesFresh cfg held fuel queues g) (h : Numbered held g.newPhase g.lb.nextPhase) :
    Numbered held (arbitrate cfg fuel queues g).newPhase
      (arbitrate cfg fuel queues g).lb.nextPhase := by
  induction fuel generalizing queues g with
  | zero => exact h
  | succ fuel ih =>
    rw [ServesFresh] at hfresh
    rw [arbitrate]
    cases hbest : bestHead queues with
    | none => exact h
    | some best =>
      rw [hbest] at hfresh
      exact ih hfresh.2 (h.serve hfresh.1)

theorem Phased.renew {newPhase : Fin n → Slot → Option Time} {nextPhase : Slot → Option Time}
    (h : Phased held) (hnew : Numbered held newPhase nextPhase) :
    Phased fun a s => (newPhase a s).or (held a s) := by
  have hcases : ∀ {a s p}, (newPhase a s).or (held a s) = some p →
      newPhase a s = some p ∨ newPhase a s = none ∧ held a s = some p := fun hp =>
    Option.or_eq_some_iff.mp hp
  have hleft : ∀ {a b s p}, newPhase a s = some p → newPhase b s = none → held b s ≠ some p :=
    fun {a b s p} ha hb hp => by
      have hsome := hnew.renewed b a s (ha ▸ rfl) (hp ▸ rfl)
      rw [hb] at hsome
      cases hsome
  refine ⟨fun a s p hp => ?_, fun a b s p ha hb => ?_⟩
  · rcases hcases hp with hp | ⟨-, hp⟩
    · obtain ⟨m, -, hbelow⟩ := hnew.counted s
      obtain ⟨k, -, hk⟩ := hbelow a p hp
      exact ⟨k, hk⟩
    · exact h.multiple a s p hp
  · rcases hcases ha with ha | ⟨hano, ha⟩ <;> rcases hcases hb with hb | ⟨hbno, hb⟩
    · exact hnew.distinct a b s p ha hb
    · exact absurd hb (hleft ha hbno)
    · exact absurd ha (hleft hb hano)
    · exact h.distinct a b s p ha hb

/-! ## 2. The destinations of an epoch -/

/-- The phases of all source leaves for all destinations. -/
def PhasesOk (brokers : Fin n → LeafBroker) : Prop :=
  ∀ d : Leaf, Phased fun a => (brokers a).grantedPhase d

theorem grantedPhase_grantQuota (hled : Ledger cfg brokers) (d a : Fin n) :
    (grantQuota cfg queues brokers d a).grantedPhase =
      Function.update (brokers a).grantedPhase d fun s =>
        ((grantsOf cfg queues brokers d).newPhase a s).or ((brokers a).grantedPhase d s) := by
  obtain ⟨dstFree, nextPhase, hlb⟩ := (grantsOf_spec queues (hled.dst_le d)).lb_eq
  have hsame : ∀ dstFree, (Function.update brokers d { (grantsOf cfg queues brokers d).lb with
      dstFree := dstFree } a).grantedPhase = (brokers a).grantedPhase := fun dstFree' => by
    rw [update_apply]
    split
    · next hd => rw [hlb, hd]
    · rfl
  rw [← hsame { (grantsOf cfg queues brokers d).lb.dstFree with
    wrapped := (grantsOf cfg queues brokers d).lb.dstFree.wrapped ||
      (grantsOf cfg queues brokers d).provisionalDstFree.wrapped }]
  rfl

/-- The grants of leaf `d` are fresh. -/
def GrantsFresh (cfg : Config) (queues : DestQueues n) (brokers : Fin n → LeafBroker)
    (d : Fin n) : Prop :=
  ServesFresh cfg (fun a => (brokers a).grantedPhase d) (queues d).length
    (fun s => (queues d).filter (·.srcLeaf = s))
    { lb := { brokers d with nextPhase := fun _ => none }
      provisionalDstFree := (brokers d).dstFree }

theorem grantQuota_phases (hled : Ledger cfg brokers) {d : Fin n}
    (hfresh : GrantsFresh cfg queues brokers d) (h : PhasesOk brokers) :
    PhasesOk (grantQuota cfg queues brokers d) := by
  intro d'
  simp only [grantedPhase_grantQuota hled, update_apply]
  split
  · next hd =>
    subst hd
    exact (h d).renew (arbitrate_numbered hfresh (numbered_start _))
  · exact h d'

/-- The grants of one destination after the other are fresh. -/
def AllFresh (cfg : Config) (queues : DestQueues n) :
    List (Fin n) → (Fin n → LeafBroker) → Prop
  | [], _ => True
  | d :: l, brokers =>
    GrantsFresh cfg queues brokers d ∧ AllFresh cfg queues l (grantQuota cfg queues brokers d)

theorem foldl_grantQuota_phases {l : List (Fin n)} (hled : Ledger cfg brokers)
    (hfresh : AllFresh cfg queues l brokers) (h : PhasesOk brokers) :
    PhasesOk (l.foldl (grantQuota cfg queues) brokers) := by
  induction l generalizing brokers with
  | nil => exact h
  | cons d l ih =>
    exact ih (grantQuota_ledger hled d) hfresh.2 (grantQuota_phases hled hfresh.1 h)

/-! ## 3. Runs -/

theorem grantedPhase_fastControlPath (lb : LeafBroker) :
    (fastControlPath cfg sort now lb).grantedPhase = lb.grantedPhase := by
  have hplaced := grantedPhase_foldl_placeEvent cfg (slotOf now)
    (sort.run (commitEvents cfg now lb)) (lb.modifyAll (prioritize cfg now), [])
  generalize hrun : (sort.run (commitEvents cfg now lb)).foldl (placeEvent cfg (slotOf now))
    (lb.modifyAll (prioritize cfg now), []) = st at hplaced
  obtain ⟨events, heq, -⟩ := foldl_commitEvent_times (commits sort st.1 st.2) st.1
  have hpath : fastControlPath cfg sort now lb = (commits sort st.1 st.2).foldl commitEvent st.1 :=
    congrArg (fun st : LeafBroker × List (Slot × LocalEvent) =>
      (commits sort st.1 st.2).foldl commitEvent st.1) hrun
  rw [hpath, heq]
  exact hplaced

theorem requestPhases_phases (sort : Sorter EventLess) (now : Time) (hled : Ledger cfg brokers)
    (queues : DestQueues n) (l : List (Fin n)) :
    Ledger cfg (l.foldl (requestPhase cfg sort now) (brokers, queues)).1 ∧
    ∀ a, ((l.foldl (requestPhase cfg sort now) (brokers, queues)).1 a).grantedPhase =
      (brokers a).grantedPhase := by
  refine foldl_keeps (P := fun st : (Fin n → LeafBroker) × DestQueues n => Ledger cfg st.1 ∧
    ∀ a, (st.1 a).grantedPhase = (brokers a).grantedPhase) (fun st i h => ?_) l ⟨hled, fun _ => rfl⟩
  obtain ⟨hled, hsame⟩ := h
  refine ⟨requestPhase_ledger hled i, fun a => ?_⟩
  obtain ⟨events, heq, -⟩ := requestPhase_spec sort now st.2 (hled.balanced i)
  rw [heq, ← hsame a, update_apply]
  split
  · next ha => rw [ha]
  · rfl

theorem checkAdmission_phases {rank : Rank} {task : MoeTask} {st st' : State cfg.numLeafs}
    {ret : Bool} (h : checkAdmission cfg sort rank task now st = some (st', ret))
    (a : Fin cfg.numLeafs) : (st'.brokers a).grantedPhase = (st.brokers a).grantedPhase := by
  obtain ⟨i, -, ⟨-, -, heq⟩ | ⟨-, heq⟩⟩ := checkAdmission_brokers h
  · rw [heq]
  · rw [heq, update_apply]
    split
    · next ha => rw [grantedPhase_fastControlPath, ha, register]
    · rfl

/-- The grants of an epoch are fresh. -/
def EpochFresh (cfg : Config) (sort : Sorter EventLess) (now : Time) (st : State n) : Prop :=
  let (brokers, destQueues) :=
    (List.finRange n).foldl (requestPhase cfg sort now) (st.brokers, fun _ => [])
  AllFresh cfg destQueues (List.finRange n) brokers

/-- The grants that an input starts are fresh. -/
def Fresh (cfg : Config) (sort : Sorter EventLess) (w : World cfg) : Input → Prop
  | .call _ _ _ => True
  | .epoch now => EpochFresh cfg sort now w.state

theorem step_phases {w w' : World cfg} {input : Input} (hled : Ledger cfg w.state.brokers)
    (hfresh : Fresh cfg sort w input) (hstep : Step cfg sort w input w')
    (h : PhasesOk w.state.brokers) : PhasesOk w'.state.brokers := by
  cases hstep with
  | @call rank task now st ret _ _ hcall =>
    intro d
    simp only [checkAdmission_phases hcall]
    exact h d
  | @epoch now _ =>
    obtain ⟨hled', hsame⟩ := requestPhases_phases sort now hled (fun _ => []) (List.finRange _)
    have hbefore : PhasesOk (beforeCommits cfg sort now w.state) :=
      foldl_grantQuota_phases hled' hfresh fun d => by
        simp only [hsame]
        exact h d
    intro d
    show Phased fun a => ((onEpochTimer cfg sort now w.state).brokers a).grantedPhase d
    simp only [onEpochTimer_brokers, foldl_update_self _ (List.nodup_finRange _),
      List.mem_finRange, if_true, grantedPhase_fastControlPath]
    exact hbefore d

/-- In every run whose grants are fresh, the leaves that hold a phase for a slot of a destination
hold different multiples of the gap. -/
theorem phases_of_fresh {w : World cfg} (h : GuardedRun cfg sort (Fresh cfg sort) {} w) :
    PhasesOk w.state.brokers := by
  induction h with
  | refl => exact fun d => ⟨fun _ _ _ hp => (nomatch hp), fun _ _ _ _ hp => (nomatch hp)⟩
  | tail hrun hstep ih =>
    obtain ⟨input, hfresh, hstep⟩ := hstep
    exact step_phases (reachable_ledger (GuardedRun.reachable hrun)) hfresh hstep ih

/-! ## 4. Two sources of one slot -/

/-- Where no leaf holds a phase for a destination, its grants are fresh. -/
theorem servesFresh_of_none (h : ∀ a s, held a s = none) (fuel : Nat)
    (queues : Fin n → List (Request n)) (g : Grants n) : ServesFresh cfg held fuel queues g := by
  induction fuel generalizing queues g with
  | zero => exact trivial
  | succ fuel ih =>
    rw [ServesFresh]
    split
    · exact trivial
    · exact ⟨fun s _ _ b _ => h b s, ih _ _⟩

theorem allFresh_of_none {l : List (Fin n)} (hl : l.Nodup) (hled : Ledger cfg brokers)
    (h : ∀ d ∈ l, ∀ a s, (brokers a).grantedPhase d s = none) : AllFresh cfg queues l brokers := by
  induction l generalizing brokers with
  | nil => exact trivial
  | cons d l ih =>
    obtain ⟨hd, hl⟩ := List.nodup_cons.mp hl
    obtain ⟨hnone, hrest⟩ := List.forall_mem_cons.mp h
    refine ⟨servesFresh_of_none hnone _ _ _, ih hl (grantQuota_ledger hled d) fun d' hd' a s => ?_⟩
    have hne : (d' : Leaf) ≠ d := fun heq => hd (Fin.ext heq ▸ hd')
    rw [grantedPhase_grantQuota hled, update_of_ne hne]
    exact hrest d' hd' a s

theorem epochFresh_of_none {st : State n} (hled : Ledger cfg st.brokers)
    (h : ∀ a d s, (st.brokers a).grantedPhase d s = none) : EpochFresh cfg sort now st := by
  obtain ⟨hled', hsame⟩ := requestPhases_phases sort now hled (fun _ => []) (List.finRange _)
  exact allFresh_of_none (List.nodup_finRange n) hled' fun d _ a s => by rw [hsame, h]

/-- Five bytes for leaf 1 at some time. -/
def fiveAt (taskId : TaskId) (startTime : Rat) : MoeTask :=
  { taskTo taskId ((∅ : FlowMap).insert 1 5) with startTime := startTime }

theorem grantedPhase_reported {rank : Rank} (task : MoeTask) (st : State rivalsCfg.numLeafs)
    (hrank : u32 (rank / rivalsCfg.k) < rivalsCfg.numLeafs) (a : Fin rivalsCfg.numLeafs) :
    ((reported rank task st).brokers a).grantedPhase = (st.brokers a).grantedPhase := by
  obtain ⟨ret, hcall, htimer⟩ := checkAdmission_reported task st hrank
  exact checkAdmission_phases hcall a

/-- The state after ranks 0 and 2 have reported. -/
@[irreducible] def twoReported (task task' : MoeTask) : State rivalsCfg.numLeafs :=
  reported 2 task' (reported 0 task {})

theorem run_twoReported {P : Input → Prop} (hP : ∀ rank task, P (.call rank task 0))
    (task task' : MoeTask) :
    Run rivalsCfg rivalsSort P {} ⟨twoReported task task', 0⟩ ∧
    (twoReported task task').timer = some 1000000 := by
  have hfirst : Run rivalsCfg rivalsSort P {} ⟨reported 0 task {}, 0⟩ ∧
      (reported 0 task {}).timer = some 1000000 :=
    run_reported .refl (le_refl _) (by decide) (hP 0 task)
  have hsecond : Run rivalsCfg rivalsSort P {} ⟨reported 2 task' (reported 0 task {}), 0⟩ ∧ _ :=
    run_reported hfirst.1 (by rw [hfirst.2]; decide) (by decide) (hP 2 task')
  unfold twoReported
  exact ⟨hsecond.1, by rw [hsecond.2, hfirst.2, Option.getD_some]⟩

theorem GuardedRun.of_run {P : Input → Prop} {guard : World cfg → Input → Prop} {w w' : World cfg}
    (h : ∀ w input, P input → guard w input) (hrun : Run cfg sort P w w') :
    GuardedRun cfg sort guard w w' := by
  induction hrun with
  | refl => exact .refl
  | tail _ hstep ih =>
    obtain ⟨input, hP, hstep⟩ := hstep
    exact .tail ih ⟨input, h _ input hP, hstep⟩

/-- Both tasks for the slot at which the first epoch begins. -/
@[irreducible] def oneEpoch : State rivalsCfg.numLeafs :=
  onEpochTimer rivalsCfg rivalsSort 1000000 (twoReported (fiveAt 1 0) (fiveAt 2 0))

/-- Granted in one epoch, the two leaves hold the phases 0 and 10 us. -/
theorem phases_of_fresh_oneEpoch :
    GuardedRun rivalsCfg rivalsSort (Fresh rivalsCfg rivalsSort) {} ⟨oneEpoch, 1000000⟩ ∧
    PhasesOk oneEpoch.brokers ∧
    (oneEpoch.brokers ⟨0, by decide⟩).grantedPhase 1 100 = some 0 ∧
    (oneEpoch.brokers ⟨2, by decide⟩).grantedPhase 1 100 = some 10000 := by
  have hcalls : ∀ w input, (∃ rank task, input = .call rank task 0) →
      Fresh rivalsCfg rivalsSort w input := by
    rintro w _ ⟨rank, task, rfl⟩
    exact trivial
  obtain ⟨hrun, htimer⟩ := run_twoReported (P := fun input => ∃ rank task,
    input = .call rank task 0) (fun rank task => ⟨rank, task, rfl⟩) (fiveAt 1 0) (fiveAt 2 0)
  have hreports := GuardedRun.of_run hcalls hrun
  have hnone : ∀ a d s, ((twoReported (fiveAt 1 0) (fiveAt 2 0)).brokers a).grantedPhase d s =
      none := fun a d s => by
    unfold twoReported
    rw [grantedPhase_reported _ _ (by decide), grantedPhase_reported _ _ (by decide)]
  have hepoch : GuardedRun rivalsCfg rivalsSort (Fresh rivalsCfg rivalsSort) {}
      ⟨oneEpoch, 1000000⟩ := by
    unfold oneEpoch
    exact .tail hreports ⟨.epoch 1000000,
      epochFresh_of_none (reachable_ledger (GuardedRun.reachable hreports)) hnone, .epoch htimer⟩
  exact ⟨hepoch, phases_of_fresh hepoch, by decide +kernel, by decide +kernel⟩

/-- Two tasks for slot 10100. The second becomes eligible an epoch later than the first. -/
@[irreducible] def renumbered : State rivalsCfg.numLeafs :=
  onEpochTimer rivalsCfg rivalsSort 2000000 (onEpochTimer rivalsCfg rivalsSort 1000000
    (twoReported (fiveAt 1 (101 / 1000)) (fiveAt 2 (101005 / 1000000))))

/-- Granted in two epochs, both leaves hold phase 0. -/
theorem not_phasesOk_renumbered : Reachable rivalsCfg rivalsSort ⟨renumbered, 2000000⟩ ∧
    ¬PhasesOk renumbered.brokers := by
  constructor
  · obtain ⟨hrun, htimer⟩ := run_twoReported (P := fun _ => True) (fun _ _ => trivial)
      (fiveAt 1 (101 / 1000)) (fiveAt 2 (101005 / 1000000))
    unfold renumbered
    exact Run.reachable (run_epoch (run_epoch hrun htimer trivial) (timer_onEpochTimer _ _ _ _)
      trivial) .init
  · intro h
    have hfirst : (renumbered.brokers ⟨0, by decide⟩).grantedPhase 1 10100 = some 0 := by
      decide +kernel
    have hsecond : (renumbered.brokers ⟨2, by decide⟩).grantedPhase 1 10100 = some 0 := by
      decide +kernel
    exact absurd ((h 1).distinct _ _ 10100 0 hfirst hsecond) (by decide)

end MoeJit.DistributedAging
