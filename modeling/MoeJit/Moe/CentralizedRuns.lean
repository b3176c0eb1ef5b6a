import MoeJit.Moe.CentralizedLedger

/-!
# Runs of the centralized scheduler

`Accounted` ties the scheduler's state to the reservations made so far. Every
`CheckAdmission` call keeps it (`checkAdmission_accounted`), so it holds in
every reachable state, and `capacity_ledger` reads the balance of the ledger
off it.
-/

namespace MoeJit.Centralized

open Words StdSort List
open AList (lookup_insert lookup_insert_ne)

/-! ## 1. Reservations -/

/-- The window of a reservation contains slot `s`. -/
def Charge.Covers (c : Charge) (s : Nat) : Prop := c.start ≤ s ∧ s < c.start + c.span

instance (c : Charge) (s : Nat) : Decidable (c.Covers s) :=
  inferInstanceAs (Decidable (_ ∧ _))

/-- What the reservations took from slot `s`. -/
def globalCharged (charges : List Charge) (s : Nat) : Nat :=
  (charges.map fun c => if c.Covers s then c.d_i / c.span else 0).sum

/-- What the reservations took from rank `r` in slot `s`. -/
def rankCharged (charges : List Charge) (s : Nat) (r : Rank) : Nat :=
  (charges.map fun c => if c.Covers s then (c.b_ir.lookup r).getD 0 / c.span else 0).sum

theorem globalCharged_cons (c : Charge) (charges : List Charge) (s : Nat) :
    globalCharged (c :: charges) s =
      (if c.start ≤ s ∧ s < c.start + c.span then c.d_i / c.span else 0) +
        globalCharged charges s := by
  rw [globalCharged, map_cons, sum_cons]
  rfl

theorem rankCharged_cons (c : Charge) (charges : List Charge) (s : Nat) (r : Rank) :
    rankCharged (c :: charges) s r =
      (if c.start ≤ s ∧ s < c.start + c.span then footOf c.span c.b_ir.entries r else 0) +
        rankCharged charges s r := by
  rw [rankCharged, map_cons, sum_cons]
  rfl

/-- The ledger balances against the reservations, and the reservations are
those of the scheduled tasks. -/
structure Accounted (cfg : Config) (st : State) (charges : List Charge) : Prop where
  global : ∀ s, globalFree cfg st.ledger s + globalCharged charges s = cfg.globalLimit
  rank : ∀ s r, rankFree cfg st.ledger s r + rankCharged charges s r = cfg.rankLimit
  noWrap : ∀ c ∈ charges, ∀ p ∈ c.subtractions, p.2 ≤ p.1
  inside : ∀ c ∈ charges, c.start + c.span ≤ st.ledger.length
  nodup : (charges.map (·.taskId)).Nodup
  charged : ∀ tid ts, st.pool.lookup tid = some ts →
    (ts.scheduled = true ↔ tid ∈ charges.map (·.taskId))
  window : ∀ c ∈ charges, ∃ ts, st.pool.lookup c.taskId = some ts ∧ ts.span = c.span ∧
    ts.allowedTime = c.start * cfg.deltaT

variable {cfg : Config} {st st' : State} {charges new : List Charge} {slot bytes : Nat}
  {tid : TaskId} {now : Rat} {order : List TaskId} {rank : Rank} {task : MoeTask} {w : World}

theorem Accounted.bounded (h : Accounted cfg st charges) : Bounded cfg st.ledger :=
  ⟨fun s => Nat.le.intro (h.global s), fun s r => Nat.le.intro (h.rank s r)⟩

theorem accounted_init (cfg : Config) : Accounted cfg (State.init cfg) [] where
  global s := by
    simp only [State.init, globalFree, globalCharged, getElem?_replicate]
    split <;> simp
  rank s r := by
    simp only [State.init, rankFree, rankCharged, getElem?_replicate]
    split <;> simp
  noWrap := by simp
  inside := by simp
  nodup := nodup_nil
  charged := by simp [State.init]
  window := by simp

/-! ## 2. One task -/

/-- What the body of the scheduling loop can do: nothing, only a new span and a
ledger with the same free capacity, or one reservation of a window with room. -/
theorem scheduleTask_cases (h : scheduleTask cfg slot tid st = some (st', charges)) :
    (st.pool.lookup tid = none ∧ st' = st ∧ charges = []) ∨
    ∃ task ledger, st.pool.lookup tid = some task ∧
      SameFree cfg (grow cfg (u32 (slot + searchHorizon cfg (spanOf cfg task.d_i) +
        spanOf cfg task.d_i + 1000)) st.ledger) ledger ∧
      ((charges = [] ∧ st' = { st with
          pool := st.pool.insert tid { task with span := spanOf cfg task.d_i }
          ledger := ledger }) ∨
       ∃ t ledger' subs,
        slot ≤ t ∧ WindowRoom cfg task.d_i (spanOf cfg task.d_i) task.b_ir.entries ledger t ∧
        (∀ s, t ≤ s → s < t + spanOf cfg task.d_i → ∀ kv ∈ task.b_ir.entries,
          HasEntry ledger s kv.1) ∧
        (∀ u, slot ≤ u → u < t →
          ¬ WindowRoom cfg task.d_i (spanOf cfg task.d_i) task.b_ir.entries ledger u) ∧
        commit task.d_i (spanOf cfg task.d_i) task.b_ir.entries (spanOf cfg task.d_i) t ledger =
          (ledger', subs) ∧
        charges = [⟨tid, t, spanOf cfg task.d_i, task.d_i, task.b_ir, subs⟩] ∧
        st' = { st with
          pool := st.pool.insert tid { task with
            span := spanOf cfg task.d_i, scheduled := true, allowedTime := t * cfg.deltaT }
          ledger := ledger' }) := by
  unfold scheduleTask at h
  split at h
  · next hnone =>
    obtain ⟨rfl, rfl⟩ := Prod.mk.inj (Option.some.inj h)
    exact Or.inl ⟨hnone, rfl, rfl⟩
  next task hsome =>
  refine Or.inr ⟨task, ?_⟩
  simp only at h
  split at h
  · exact absurd h (by simp)
  · next ledger hsearch =>
    obtain ⟨rfl, rfl⟩ := Prod.mk.inj (Option.some.inj h)
    exact ⟨ledger, hsome, (searchSlot_spec hsearch).1, Or.inl ⟨rfl, rfl⟩⟩
  · next t ledger hsearch =>
    obtain ⟨hsame, hfound⟩ := searchSlot_spec hsearch
    obtain ⟨h1, -, hroom, hentries, hfirst⟩ := hfound t rfl
    obtain ⟨rfl, rfl⟩ := Prod.mk.inj (Option.some.inj h)
    exact ⟨ledger, hsome, hsame, Or.inr ⟨t, _, _, h1, hsame.windowRoom_iff.mpr hroom, hentries,
      fun u h2 h3 hu => hfirst u h2 h3 (hsame.windowRoom_iff.mp hu), rfl, rfl, rfl⟩⟩

/-- Replacing the entry of an unscheduled task by one that is not scheduled
either keeps the pool's part of the accounts. -/
theorem Accounted.insert_unscheduled (h : Accounted cfg st charges) {ts : TaskState}
    {ledger : Ledger} (hts : ts.scheduled = false) (htid : tid ∉ charges.map (·.taskId))
    (hlen : st.ledger.length ≤ ledger.length)
    (hglobal : ∀ s, globalFree cfg ledger s = globalFree cfg st.ledger s)
    (hrank : ∀ s r, rankFree cfg ledger s r = rankFree cfg st.ledger s r) :
    Accounted cfg { st with pool := st.pool.insert tid ts, ledger := ledger } charges where
  global s := by rw [hglobal]; exact h.global s
  rank s r := by rw [hrank]; exact h.rank s r
  noWrap := h.noWrap
  inside c hc := le_trans (h.inside c hc) hlen
  nodup := h.nodup
  charged tid' ts' hlook := by
    by_cases heq : tid' = tid
    · subst heq
      rw [lookup_insert] at hlook
      obtain rfl := Option.some.inj hlook
      simp only [hts, Bool.false_eq_true, false_iff]
      exact htid
    · rw [lookup_insert_ne heq] at hlook
      exact h.charged tid' ts' hlook
  window c hc := by
    obtain ⟨ts', hlook, hw⟩ := h.window c hc
    have hne : c.taskId ≠ tid := fun heq => htid (heq ▸ mem_map_of_mem hc)
    exact ⟨ts', by rw [lookup_insert_ne hne]; exact hlook, hw⟩

theorem scheduleTask_accounted (hacc : Accounted cfg st charges)
    (hpend : ∀ ts, st.pool.lookup tid = some ts → ts.scheduled = false)
    (h : scheduleTask cfg slot tid st = some (st', new)) : Accounted cfg st' (new ++ charges) := by
  rcases scheduleTask_cases h with ⟨-, rfl, rfl⟩ | ⟨task, ledger, hlook, hsame, hcase⟩
  · exact hacc
  have hunsched := hpend task hlook
  have hnot : tid ∉ charges.map (·.taskId) := by
    rw [← hacc.charged tid task hlook, hunsched]
    exact Bool.false_ne_true
  obtain ⟨hgrowG, hgrowR⟩ := grow_free cfg (u32 (slot + searchHorizon cfg (spanOf cfg task.d_i) +
    spanOf cfg task.d_i + 1000)) st.ledger
  have hglobal : ∀ s, globalFree cfg ledger s = globalFree cfg st.ledger s :=
    fun s => (hsame.global_eq s).trans (hgrowG s)
  have hrank : ∀ s r, rankFree cfg ledger s r = rankFree cfg st.ledger s r :=
    fun s r => (hsame.rank_eq s r).trans (hgrowR s r)
  have hlen : st.ledger.length ≤ ledger.length := by
    rw [hsame.length_eq]
    exact (length_grow_ge cfg _ st.ledger).1
  rcases hcase with ⟨rfl, rfl⟩ | ⟨t, ledger', subs, hslot, hroom, hentries, -, hcommit, rfl, rfl⟩
  · exact hacc.insert_unscheduled hunsched hnot hlen hglobal hrank
  have hbound : Bounded cfg ledger :=
    ⟨fun s => hglobal s ▸ hacc.bounded.1 s, fun s r => hrank s r ▸ hacc.bounded.2 s r⟩
  obtain ⟨hlen', hcg, hcr, hsubs⟩ := commit_spec hcommit task.b_ir.nodupKeys hbound hroom hentries
  have hpos : 0 < spanOf cfg task.d_i := by
    unfold spanOf
    simp only
    split <;> omega
  have hend : t + spanOf cfg task.d_i ≤ ledger.length := by
    have := (hroom (t + spanOf cfg task.d_i - 1) (by omega) (by omega)).1
    omega
  exact
    { global := fun s => by
        have hs := hcg s
        rw [hglobal] at hs
        rw [singleton_append, globalCharged_cons, ← hacc.global s, ← hs, add_assoc]
      rank := fun s r => by
        have hs := hcr s r
        rw [hrank] at hs
        rw [singleton_append, rankCharged_cons, ← hacc.rank s r, ← hs, add_assoc]
      noWrap := forall_mem_cons.mpr ⟨hsubs, hacc.noWrap⟩
      inside := forall_mem_cons.mpr ⟨hlen' ▸ hend, fun c hc => by
        rw [hlen']
        exact le_trans (hacc.inside c hc) hlen⟩
      nodup := nodup_cons.mpr ⟨hnot, hacc.nodup⟩
      charged := fun tid' ts' hts' => by
        rw [singleton_append, map_cons, mem_cons]
        by_cases heq : tid' = tid
        · subst heq
          rw [lookup_insert] at hts'
          obtain rfl := Option.some.inj hts'
          simp
        · rw [lookup_insert_ne heq] at hts'
          rw [hacc.charged tid' ts' hts']
          simp [heq]
      window := forall_mem_cons.mpr ⟨⟨_, lookup_insert _, rfl, rfl⟩, fun c hc => by
        obtain ⟨ts', hts', hw⟩ := hacc.window c hc
        have hne : c.taskId ≠ tid := fun heq => hnot (heq ▸ mem_map_of_mem hc)
        exact ⟨ts', by rw [lookup_insert_ne hne]; exact hts', hw⟩⟩ }

theorem scheduleTask_lookup_ne {tid' : TaskId}
    (h : scheduleTask cfg slot tid st = some (st', charges)) (hne : tid' ≠ tid) :
    st'.pool.lookup tid' = st.pool.lookup tid' := by
  rcases scheduleTask_cases h with
    ⟨-, rfl, rfl⟩ | ⟨task, ledger, -, -, ⟨-, rfl⟩ | ⟨t, ledger', subs, -, -, -, -, -, -, rfl⟩⟩
  · rfl
  · exact lookup_insert_ne hne
  · exact lookup_insert_ne hne

/-! ## 3. One pass -/

theorem mem_pendingTasks : tid ∈ pendingTasks cfg st ↔
      ∃ ts, st.pool.lookup tid = some ts ∧ ts.scheduled = false ∧ quorumReady cfg ts = true := by
  simp only [pendingTasks, mem_map, mem_filter, Bool.and_eq_true, Bool.not_eq_true']
  constructor
  · rintro ⟨⟨tid', ts⟩, ⟨hmem, hns, hq⟩, rfl⟩
    exact ⟨ts, AList.mem_lookup_iff.mpr hmem, hns, hq⟩
  · rintro ⟨ts, hlook, hns, hq⟩
    exact ⟨⟨tid, ts⟩, ⟨AList.mem_lookup_iff.mp hlook, hns, hq⟩, rfl⟩

theorem nodup_pendingTasks (cfg : Config) (st : State) : (pendingTasks cfg st).Nodup := by
  have hkeys : (st.pool.entries.map Sigma.fst).Nodup := st.pool.nodupKeys
  exact hkeys.sublist (filter_sublist.map _)

theorem runScheduling_cons {tid : TaskId}
    (h : runScheduling cfg now (tid :: order) st = some (st', charges)) :
    ∃ st₁ new more, scheduleTask cfg (currentSlotIdx cfg now) tid st = some (st₁, new) ∧
      runScheduling cfg now order st₁ = some (st', more) ∧ charges = more ++ new := by
  rw [runScheduling] at h
  split at h
  · cases h
  next st₁ new hstep =>
  obtain ⟨⟨st₂, more⟩, hrest, heq⟩ := Option.map_eq_some_iff.mp h
  obtain ⟨rfl, rfl⟩ := Prod.mk.inj heq
  exact ⟨st₁, new, more, hstep, hrest, rfl⟩

theorem runScheduling_accounted (hacc : Accounted cfg st charges) (hnodup : order.Nodup)
    (hpend : ∀ tid ∈ order, ∀ ts, st.pool.lookup tid = some ts → ts.scheduled = false)
    (h : runScheduling cfg now order st = some (st', new)) :
    Accounted cfg st' (new ++ charges) := by
  induction order generalizing st charges new with
  | nil =>
    obtain ⟨rfl, rfl⟩ := Prod.mk.inj (Option.some.inj h)
    exact hacc
  | cons tid rest ih =>
    obtain ⟨st₁, new₁, new₂, hstep, hrest, rfl⟩ := runScheduling_cons h
    obtain ⟨hpend₀, hpend₁⟩ := forall_mem_cons.mp hpend
    obtain ⟨hnot, hnodup₁⟩ := nodup_cons.mp hnodup
    have hacc₁ := scheduleTask_accounted hacc hpend₀ hstep
    rw [append_assoc]
    refine ih hacc₁ hnodup₁ (fun tid' htid' ts hts => ?_) hrest
    have hne : tid' ≠ tid := fun heq => hnot (heq ▸ htid')
    exact hpend₁ tid' htid' ts (scheduleTask_lookup_ne hstep hne ▸ hts)

/-- A pass whose slot arithmetic fits its words reads only slots of the
ledger. -/
theorem runScheduling_isSome (hnodup : order.Nodup)
    (hfits : ∀ tid ∈ order, ∀ task ∈ st.pool.lookup tid,
      currentSlotIdx cfg now + (if spanOf cfg task.d_i < cfg.horizon then cfg.horizon
        else spanOf cfg task.d_i + 100) + spanOf cfg task.d_i + 1000 < 2 ^ 32) :
    (runScheduling cfg now order st).isSome := by
  induction order generalizing st with
  | nil => rfl
  | cons tid rest ih =>
    obtain ⟨hfits₀, hfits₁⟩ := forall_mem_cons.mp hfits
    obtain ⟨hnot, hnodup₁⟩ := nodup_cons.mp hnodup
    have hone : (scheduleTask cfg (currentSlotIdx cfg now) tid st).isSome := by
      unfold scheduleTask
      split
      · rfl
      next task hlook =>
      have hfit := hfits₀ task hlook
      have hhor : searchHorizon cfg (spanOf cfg task.d_i) =
          if spanOf cfg task.d_i < cfg.horizon then cfg.horizon
          else spanOf cfg task.d_i + 100 := by
        unfold searchHorizon
        split
        · rfl
        · next hge =>
          rw [if_neg hge] at hfit
          exact u32_of_lt (by omega)
      have hsearch : (searchSlot cfg task.d_i (spanOf cfg task.d_i) task.b_ir.entries
          (u32 (currentSlotIdx cfg now + searchHorizon cfg (spanOf cfg task.d_i)))
          (currentSlotIdx cfg now) (grow cfg (u32 (currentSlotIdx cfg now + searchHorizon cfg
            (spanOf cfg task.d_i) + spanOf cfg task.d_i + 1000)) st.ledger)).isSome :=
        searchSlot_isSome (by rw [hhor, u32_of_lt (by omega)]; omega)
      obtain ⟨⟨found, ledger⟩, hfound⟩ := Option.isSome_iff_exists.mp hsearch
      simp only [hfound]
      cases found <;> rfl
    obtain ⟨⟨st₁, new₁⟩, hstep⟩ := Option.isSome_iff_exists.mp hone
    rw [runScheduling, hstep]
    simp only [Option.isSome_map]
    refine ih hnodup₁ fun tid' htid' task htask => hfits₁ tid' htid' task ?_
    have hne : tid' ≠ tid := fun heq => hnot (heq ▸ htid')
    exact scheduleTask_lookup_ne hstep hne ▸ htask

/-! ## 4. One call -/

theorem reportedTask_cases (cfg : Config) (rank : Rank) (task : MoeTask) (now : Rat) (st : State) :
    (st.pool.lookup task.taskId = none ∧ (reportedTask cfg rank task now st).scheduled = false) ∨
    ∃ ts, st.pool.lookup task.taskId = some ts ∧
      (reportedTask cfg rank task now st).scheduled = ts.scheduled ∧
      (reportedTask cfg rank task now st).span = ts.span ∧
      (reportedTask cfg rank task now st).allowedTime = ts.allowedTime := by
  unfold reportedTask
  cases hlook : st.pool.lookup task.taskId with
  | none => exact Or.inl ⟨rfl, rfl⟩
  | some ts => exact Or.inr ⟨ts, rfl, rfl, rfl, rfl⟩

/-- Later reports of a task leave its reservation and those of the others as
they are. -/
theorem reportReady_accounted (hacc : Accounted cfg st charges) :
    Accounted cfg (reportReady cfg rank task now st) charges := by
  rcases reportedTask_cases cfg rank task now st with ⟨hnone, hns⟩ | ⟨ts, hsome, hsch, hspan, hat⟩
  · have hnot : task.taskId ∉ charges.map (·.taskId) := by
      intro hmem
      obtain ⟨c, hc, heq⟩ := mem_map.mp hmem
      obtain ⟨ts, hts, -⟩ := hacc.window c hc
      rw [heq, hnone] at hts
      exact absurd hts (by simp)
    exact hacc.insert_unscheduled hns hnot (le_refl _) (fun _ => rfl) (fun _ _ => rfl)
  · exact
      { global := hacc.global
        rank := hacc.rank
        noWrap := hacc.noWrap
        inside := hacc.inside
        nodup := hacc.nodup
        charged := fun tid' ts' hts' => by
          by_cases heq : tid' = task.taskId
          · subst heq
            rw [reportReady, lookup_insert] at hts'
            obtain rfl := Option.some.inj hts'
            rw [hsch]
            exact hacc.charged _ ts hsome
          · rw [reportReady, lookup_insert_ne heq] at hts'
            exact hacc.charged tid' ts' hts'
        window := fun c hc => by
          obtain ⟨ts', hts', hw⟩ := hacc.window c hc
          by_cases heq : c.taskId = task.taskId
          · rw [heq, hsome] at hts'
            obtain rfl := Option.some.inj hts'
            refine ⟨reportedTask cfg rank task now st, ?_, hspan ▸ hw.1, hat ▸ hw.2⟩
            rw [heq, reportReady, lookup_insert]
          · exact ⟨ts', by rw [reportReady, lookup_insert_ne heq]; exact hts', hw⟩ }

/-- What a call can do: nothing before the start time, a report only, or a
report and a scheduling pass. -/
theorem checkAdmission_cases {ret : Bool}
    (h : checkAdmission cfg rank task now order st = some (st', ret, new)) :
    (now < task.startTime ∧ st' = st ∧ ret = false ∧ new = []) ∨
    (task.startTime ≤ now ∧ st' = reportReady cfg rank task now st ∧ new = [] ∧
      ((reportedTask cfg rank task now st).scheduled = true ∧
        ret = decide ((reportedTask cfg rank task now st).allowedTime + jitter rank ≤ now) ∨
       (reportedTask cfg rank task now st).scheduled = false ∧ ret = false)) ∨
    ∃ st₁, task.startTime ≤ now ∧ (reportedTask cfg rank task now st).scheduled = false ∧
      quorumReady cfg (reportedTask cfg rank task now st) = true ∧ st.lastRunTime < now ∧
      runScheduling cfg now order (reportReady cfg rank task now st) = some (st₁, new) ∧
      st' = { st₁ with lastRunTime := now } ∧
      ret = (st₁.pool.lookup task.taskId).any fun ts =>
        ts.scheduled && decide (ts.allowedTime ≤ now) := by
  unfold checkAdmission at h
  split at h
  · next hlt =>
    simp only [Option.some.injEq, Prod.mk.injEq] at h
    obtain ⟨rfl, rfl, rfl⟩ := h
    exact Or.inl ⟨hlt, rfl, rfl, rfl⟩
  next hge =>
  refine Or.inr ?_
  simp only at h
  split at h
  · next hsch =>
    simp only [Option.some.injEq, Prod.mk.injEq] at h
    obtain ⟨rfl, rfl, rfl⟩ := h
    exact Or.inl ⟨not_lt.mp hge, rfl, rfl, Or.inl ⟨hsch, rfl⟩⟩
  next hns =>
  have hns : (reportedTask cfg rank task now st).scheduled = false := Bool.eq_false_iff.mpr hns
  split at h
  · next hrun =>
    obtain ⟨hq, hlast⟩ := Bool.and_eq_true_iff.mp hrun
    split at h
    · exact absurd h (by simp)
    next st₁ charges hpass =>
    simp only [Option.some.injEq, Prod.mk.injEq] at h
    obtain ⟨rfl, rfl, rfl⟩ := h
    exact Or.inr ⟨st₁, not_lt.mp hge, hns, hq, of_decide_eq_true hlast, hpass, rfl, rfl⟩
  · simp only [Option.some.injEq, Prod.mk.injEq] at h
    obtain ⟨rfl, rfl, rfl⟩ := h
    exact Or.inl ⟨not_lt.mp hge, rfl, rfl, Or.inr ⟨hns, rfl⟩⟩

theorem checkAdmission_accounted {ret : Bool} (hacc : Accounted cfg w.state w.charges)
    (hadm : Admissible cfg rank task now order w)
    (h : checkAdmission cfg rank task now order w.state = some (st, ret, new)) :
    Accounted cfg st (new ++ w.charges) := by
  rcases checkAdmission_cases h with ⟨-, rfl, -, rfl⟩ | ⟨-, rfl, rfl, -⟩ |
    ⟨st₁, -, -, -, -, hpass, rfl, -⟩
  · exact hacc
  · exact reportReady_accounted hacc
  · have hacc₁ := runScheduling_accounted (reportReady_accounted hacc)
      (hadm.sorted.nodup (nodup_pendingTasks _ _))
      (fun tid htid ts hts => by
        obtain ⟨ts', hts', hns, -⟩ := mem_pendingTasks.mp (hadm.sorted.mem_iff.mp htid)
        rw [hts] at hts'
        exact Option.some.inj hts' ▸ hns) hpass
    exact ⟨hacc₁.global, hacc₁.rank, hacc₁.noWrap, hacc₁.inside, hacc₁.nodup, hacc₁.charged,
      hacc₁.window⟩

theorem checkAdmission_isSome (hadm : Admissible cfg rank task now order w)
    (hfits : SlotsFit cfg now (reportReady cfg rank task now w.state)) :
    (checkAdmission cfg rank task now order w.state).isSome := by
  have hpass : (runScheduling cfg now order (reportReady cfg rank task now w.state)).isSome :=
    runScheduling_isSome (hadm.sorted.nodup (nodup_pendingTasks _ _))
      (fun tid htid => hfits tid (hadm.sorted.mem_iff.mp htid))
  obtain ⟨⟨st₁, new⟩, hsome⟩ := Option.isSome_iff_exists.mp hpass
  unfold checkAdmission
  split
  · rfl
  · simp only [hsome]
    split
    · rfl
    · split <;> rfl

/-! ## 5. Every run -/

theorem reachable_accounted (h : Reachable cfg w) : Accounted cfg w.state w.charges := by
  induction h with
  | init => exact accounted_init cfg
  | call _ hadm hstep ih => exact checkAdmission_accounted ih hadm hstep

/-- The reservations of a world are those of its scheduled tasks: one for each,
with the window the task was given. -/
def ChargesAreScheduled (cfg : Config) (w : World) : Prop :=
  (w.charges.map (·.taskId)).Nodup ∧
  (∀ tid ts, w.state.pool.lookup tid = some ts →
    (ts.scheduled = true ↔ ∃ c ∈ w.charges, c.taskId = tid)) ∧
  ∀ c ∈ w.charges, ∃ ts, w.state.pool.lookup c.taskId = some ts ∧ ts.span = c.span ∧
    ts.allowedTime = c.start * cfg.deltaT

/-- In every reachable state the capacity left in a slot and the footprints of
the scheduled tasks whose window contains it add up to the limit, overall and
for each rank, and no subtraction made on the way wrapped. A further call whose
slot arithmetic fits in 32 bits reads and writes only slots of the ledger. -/
theorem capacity_ledger {cfg : Config} {w : World} (h : Reachable cfg w) :
    (∀ s, globalFree cfg w.state.ledger s + globalCharged w.charges s = cfg.globalLimit) ∧
    (∀ s r, rankFree cfg w.state.ledger s r + rankCharged w.charges s r = cfg.rankLimit) ∧
    ChargesAreScheduled cfg w ∧
    (∀ c ∈ w.charges, ∀ p ∈ c.subtractions, p.2 ≤ p.1) ∧
    ∀ rank task now order, Admissible cfg rank task now order w →
      SlotsFit cfg now (reportReady cfg rank task now w.state) →
      (checkAdmission cfg rank task now order w.state).isSome := by
  have hacc := reachable_accounted h
  refine ⟨hacc.global, hacc.rank, ⟨hacc.nodup, fun tid ts hts => ?_, hacc.window⟩, hacc.noWrap,
    fun rank task now order hadm hfits => checkAdmission_isSome hadm hfits⟩
  rw [hacc.charged tid ts hts]
  exact List.mem_map

theorem ceilDiv_le_self {r : Nat} (hbytes : 0 < bytes) (hr : 0 < r) :
    (bytes + r - 1) / r ≤ bytes := by
  refine Nat.div_le_of_le_mul ?_
  obtain ⟨k, rfl⟩ := Nat.exists_eq_add_of_lt hr
  have := Nat.le_mul_of_pos_right k hbytes
  rw [zero_add, Nat.succ_mul]
  omega

theorem spanOf_le (h : 0 < bytes) : spanOf cfg bytes ≤ bytes := by
  have hdiv : u32 (u64 (bytes + cfg.rSlot - 1) / cfg.rSlot) ≤ bytes :=
    (u32_le _).trans ((Nat.div_le_div_right (u64_le _)).trans (ceilDiv_le_self h cfg.rSlot_pos))
  unfold spanOf
  simp only
  split <;> omega

/-- A task of one rank that sends `bytes` bytes. -/
def soloTask (bytes : Nat) : MoeTask where
  taskId := 7
  startTime := 0
  sendFlows := (∅ : FlowMap).insert 1 bytes
  expectedRecvFlows := ∅
  computationTime := 0
  groupSize := 1

theorem solo_admissible (cfg : Config) (bytes : Nat) :
    Admissible cfg rank (soloTask bytes) 0 [7] (World.init cfg) where
  clock_le := le_refl _
  sorted := isSortOf_singleton _ 7

theorem solo_load (h : bytes < 2 ^ 64) : localLoad rank (soloTask bytes) = bytes := by
  have hsend : sumFlows (soloTask bytes).sendFlows.entries = u64 (0 + bytes) := rfl
  have hrecv : sumFlows ((soloTask bytes).expectedRecvFlows.entries.filter (·.1 ≠ rank)) = 0 := rfl
  rw [localLoad, hsend, hrecv, Nat.zero_add, u64_of_lt h]
  exact Nat.max_eq_left (Nat.zero_le _)

theorem solo_d_i (cfg : Config) (h : bytes < 2 ^ 64) :
    (reportedTask cfg rank (soloTask bytes) 0 (State.init cfg)).d_i = bytes := by
  have hd : (reportedTask cfg rank (soloTask bytes) 0 (State.init cfg)).d_i =
      max 0 (localLoad rank (soloTask bytes)) := rfl
  rw [hd, solo_load h]
  exact Nat.max_eq_right (Nat.zero_le _)

theorem solo_fits (hcfg : cfg.horizon = 100000) (hpos : 0 < bytes) (hle : bytes ≤ 20000) :
    SlotsFit cfg 0 (reportReady cfg rank (soloTask bytes) 0 (State.init cfg)) := by
  intro tid htid task htask
  obtain rfl : tid = 7 := mem_singleton.mp htid
  obtain rfl : reportedTask cfg rank (soloTask bytes) 0 (State.init cfg) = task := by
    simpa [reportReady, soloTask] using htask
  have hspan : spanOf cfg bytes ≤ bytes := spanOf_le hpos
  have hslot : currentSlotIdx cfg 0 = 0 := by simp [currentSlotIdx, u32]
  simp only [hslot, solo_d_i cfg (show bytes < 2 ^ 64 by omega), hcfg]
  split <;> omega

theorem capacity_ledger_solo : ∃ st ret charges,
    checkAdmission (construct 1 2) 0 (soloTask 20000) 0 [7] (State.init (construct 1 2)) =
      some (st, ret, charges) ∧
    ∀ s, globalFree (construct 1 2) st.ledger s + globalCharged charges s =
      (construct 1 2).globalLimit := by
  obtain ⟨⟨st, ret, charges⟩, hcall⟩ := Option.isSome_iff_exists.mp
    (checkAdmission_isSome (solo_admissible (construct 1 2) 20000)
      (solo_fits rfl (by decide) (by decide)))
  have h := (capacity_ledger (.call .init (solo_admissible _ 20000) hcall)).1
  refine ⟨st, ret, charges, hcall, fun s => ?_⟩
  simpa [World.init] using h s

end MoeJit.Centralized
