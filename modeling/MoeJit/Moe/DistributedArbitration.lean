import MoeJit.Lib.QueueMerge
import MoeJit.Moe.DistributedOrder
import MoeJit.Moe.SlotSearch
import Mathlib.Data.Prod.Lex

/-!
# The arbitration of a destination

In an epoch each destination leaf merges the queues of the source leaves and searches a window for
one request after the other. Every request is examined once, in the order of `prio`, `tPred` and
`srcLeaf`. It is granted if and only if some window in its search range has room, unless the end of
the range or of a window leaves the 64 bits of a slot number where that matters
(`arbitrated_iff`).
-/

namespace MoeJit.DistributedAging

open Words StdSort AssocMap FirstFit QueueMerge

variable {n : Nat} {cfg : Config} {sort : Sorter EventLess} {now : Time}

/-! ## 1. Statement -/

/-- `destQueues[d]` of an epoch. -/
def requestsTo (cfg : Config) (sort : Sorter EventLess) (now : Time) (st : State n) (d : Leaf) :
    List (Request n) :=
  ((List.finRange n).foldl (requestPhase cfg sort now) (st.brokers, fun _ => [])).2 d

/-- `srcQueues`. -/
def srcQueues (requests : List (Request n)) (s : Fin n) : List (Request n) :=
  requests.filter (·.srcLeaf = s)

/-- The requests in the order in which the loop examines them. -/
def examined (requests : List (Request n)) : List (Request n) :=
  (merge bestHead requests.length (srcQueues requests)).map (·.2)

def serveAll (cfg : Config) (requests : List (Request n)) (g : Grants n) : Grants n :=
  requests.foldl (fun g req => serve cfg req.srcLeaf req g) g

/-- The search at the destination finds a start. -/
def Granted (cfg : Config) (g : Grants n) (req : Request n) : Prop :=
  (grantStart cfg g.provisionalDstFree req).isSome

/-- Some start in the search range has room in all its slots. -/
def HasRoom (cfg : Config) (g : Grants n) (req : Request n) : Prop :=
  ∃ start, req.earliestSlot ≤ start ∧ start < req.earliestSlot + wSearch ∧
    ∀ u, start ≤ u → u < start + req.span →
      req.foot ≤ getFree g.provisionalDstFree u cfg.capacityPerSlot

/-- The loop merges the requests and grants those that have room. -/
structure Arbitrated (cfg : Config) (requests : List (Request n)) (g : Grants n) : Prop where
  once : (examined requests).Perm requests
  sorted : (examined requests).Pairwise fun a b => ¬ b.Before a
  inOrder : ∀ s, srcQueues (examined requests) s = srcQueues requests s
  /-- More iterations than there are requests change nothing. -/
  ends : ∀ fuel, requests.length ≤ fuel →
    arbitrate cfg fuel (srcQueues requests) g = serveAll cfg (examined requests) g
  grants : ∀ before req after, examined requests = before ++ req :: after →
    (Granted cfg (serveAll cfg before g) req ↔ HasRoom cfg (serveAll cfg before g) req)

/-- The search leaves the 64 bits of a slot number where that matters: the end of its range wraps
although there is room, or there is none and it comes to a start whose window wraps. -/
def Wraps (cfg : Config) (g : Grants n) (req : Request n) : Prop :=
  if 2 ^ 64 ≤ req.earliestSlot + wSearch then HasRoom cfg g req
  else ¬ HasRoom cfg g req ∧ ∃ start, req.earliestSlot ≤ start ∧
    start < req.earliestSlot + wSearch ∧ 2 ^ 64 ≤ start + req.span ∧
      (start = req.earliestSlot ∨
        getFree g.provisionalDstFree (start - 1) cfg.capacityPerSlot < req.foot)

/-! ## 2. The best head -/

/-- What the heads are compared by. -/
def Request.key (a : Request n) : Rat ×ₗ Time ×ₗ Fin n := toLex (a.prio, toLex (a.tPred, a.srcLeaf))

theorem before_iff {a b : Request n} : a.Before b ↔ a.key < b.key := by
  rw [Request.Before, Request.key, Request.key, Prod.Lex.toLex_lt_toLex]
  dsimp only
  rw [Prod.Lex.toLex_lt_toLex]
  tauto

theorem not_before_iff {a b : Request n} : ¬ b.Before a ↔ a.key ≤ b.key := by
  rw [before_iff, not_lt]

instance : IsTrans (Request n) fun a b => ¬ b.Before a where
  trans a b c := by
    simp only [not_before_iff]
    exact le_trans

/-- The best head of the queues that have been walked over. -/
def IsBest (queues : Fin n → List (Request n)) (walked : List (Fin n)) :
    Option (Fin n × Request n) → Prop
  | none => ∀ s ∈ walked, queues s = []
  | some (i, a) => (∃ rest, queues i = a :: rest) ∧
      ∀ s ∈ walked, ∀ b rest, queues s = b :: rest → ¬ b.Before a

variable {queues : Fin n → List (Request n)}

theorem IsBest.step {walked : List (Fin n)} {best : Option (Fin n × Request n)}
    (h : IsBest queues walked best) (s : Fin n) :
    IsBest queues (walked ++ [s]) (betterHead queues best s) := by
  have hall : ∀ {P : Fin n → Prop}, (∀ j ∈ walked, P j) → P s → ∀ j ∈ walked ++ [s], P j :=
    fun hwalked hs => by simpa [or_imp, forall_and] using ⟨hwalked, hs⟩
  unfold betterHead
  split
  · next best _ _ hnil =>
    have hnone : ∀ b rest, queues s ≠ b :: rest := fun b rest hq => by
      rw [hnil] at hq
      cases hq
    cases best with
    | none => exact hall h hnil
    | some best => exact ⟨h.1, hall h.2 fun b rest hq => absurd hq (hnone b rest)⟩
  · next head rest hcons =>
    refine ⟨⟨rest, hcons⟩, hall (fun j hj b rest' hq => ?_) fun b rest' hq => ?_⟩
    · rw [h j hj] at hq
      cases hq
    · obtain rfl : head = b := (List.cons.inj (hcons.symm.trans hq)).1
      exact not_before_iff.mpr le_rfl
  · next head rest best hcons =>
    obtain ⟨hhead, hbest⟩ := h
    have hself : ∀ b rest', queues s = b :: rest' → head = b := fun b rest' hq =>
      (List.cons.inj (hcons.symm.trans hq)).1
    split
    · next hbefore =>
      refine ⟨⟨rest, hcons⟩, hall (fun j hj b rest' hq => ?_) fun b rest' hq => ?_⟩
      · rw [not_before_iff]
        exact (before_iff.mp hbefore).le.trans (not_before_iff.mp (hbest j hj b rest' hq))
      · exact hself b rest' hq ▸ not_before_iff.mpr le_rfl
    · next hnot =>
      exact ⟨hhead, hall hbest fun b rest' hq => hself b rest' hq ▸ hnot⟩

theorem isBest_walk (walk : List (Fin n)) :
    IsBest queues walk (walk.foldl (betterHead queues) none) := by
  have hfold : ∀ (l walked : List (Fin n)) best, IsBest queues walked best →
      IsBest queues (walked ++ l) (l.foldl (betterHead queues) best) := by
    intro l
    induction l with
    | nil => exact fun walked best h => (List.append_nil walked).symm ▸ h
    | cons s l ih =>
      intro walked best h
      have hrest := ih (walked ++ [s]) _ (h.step s)
      rwa [List.append_assoc, List.singleton_append] at hrest
  exact hfold walk [] none fun s hs => absurd hs List.not_mem_nil

theorem isBest_bestHead (queues : Fin n → List (Request n)) :
    IsBest queues (List.finRange n) (bestHead queues) := isBest_walk _

theorem picks_bestHead : Picks (fun a b : Request n => ¬ b.Before a) bestHead where
  none {queues} hnone s := by
    have hbest := isBest_bestHead queues
    rw [hnone] at hbest
    exact hbest s (List.mem_finRange s)
  head {queues i a} hsome := by
    have hbest := isBest_bestHead queues
    rw [hsome] at hbest
    exact hbest.1
  best {queues i j a b rest} hsome hq := by
    have hbest := isBest_bestHead queues
    rw [hsome] at hbest
    exact hbest.2 j (List.mem_finRange j) b rest hq

/-- Every source leaf has its own requests in its queue. -/
def Sourced (queues : Fin n → List (Request n)) : Prop := ∀ s, ∀ req ∈ queues s, req.srcLeaf = s

/-! ## 3. The merge -/

theorem sourced_srcQueues (requests : List (Request n)) : Sourced (srcQueues requests) :=
  fun s req hreq => by simpa [srcQueues] using (List.mem_filter.mp hreq).2

theorem size_srcQueues (requests : List (Request n)) :
    size (srcQueues requests) = requests.length := by
  induction requests with
  | nil => simp [size, srcQueues]
  | cons req requests ih =>
    have hcount : ∀ s : Fin n, (srcQueues (req :: requests) s).length =
        (srcQueues requests s).length + if req.srcLeaf = s then 1 else 0 := fun s => by
      rw [srcQueues, List.filter_cons]
      simp only [decide_eq_true_eq]
      split
      · rw [List.length_cons, srcQueues]
      · rw [srcQueues, Nat.add_zero]
    unfold size at ih ⊢
    simp only [hcount, Finset.sum_add_distrib, ih, Finset.sum_ite_eq, Finset.mem_univ, if_true,
      List.length_cons]

theorem merge_srcLeaf {fuel : Nat} (hsourced : Sourced queues) {p : Fin n × Request n}
    (hp : p ∈ merge bestHead fuel queues) : p.2.srcLeaf = p.1 :=
  hsourced p.1 p.2 (mem_of_mem_merge picks_bestHead hp)

theorem srcQueues_examined (requests : List (Request n)) (s : Fin n) :
    srcQueues (examined requests) s = srcQueues requests s := by
  have hqueue := merge_queue picks_bestHead (size_srcQueues requests).le s
  rw [srcQueues, examined, List.filter_map]
  refine Eq.trans (congrArg _ (List.filter_congr fun p hp => ?_)) hqueue
  rw [Function.comp_apply, merge_srcLeaf (sourced_srcQueues requests) hp]

theorem examined_perm (requests : List (Request n)) : (examined requests).Perm requests := by
  classical
  refine List.perm_iff_count.mpr fun req => ?_
  have hcount : ∀ l : List (Request n), l.count req = (srcQueues l req.srcLeaf).count req :=
    fun l => (List.count_filter (by simp)).symm
  rw [hcount, srcQueues_examined, ← hcount]

theorem examined_sorted {requests : List (Request n)}
    (h : ∀ s, (srcQueues requests s).Pairwise fun a b => ¬ b.Before a) :
    (examined requests).Pairwise fun a b => ¬ b.Before a :=
  List.pairwise_map.mpr (merge_sorted picks_bestHead h _)

/-- The loop serves the heads in the order in which the merge takes them. -/
theorem arbitrate_eq (fuel : Nat) (hsourced : Sourced queues) (g : Grants n) :
    arbitrate cfg fuel queues g = serveAll cfg ((merge bestHead fuel queues).map (·.2)) g := by
  induction fuel generalizing queues g with
  | zero => rfl
  | succ fuel ih =>
    rw [arbitrate, merge]
    cases hbest : bestHead queues with
    | none => rfl
    | some best =>
      obtain ⟨src, req⟩ := best
      obtain ⟨rest, hrest⟩ := picks_bestHead.head hbest
      have hleaf : req.srcLeaf = src := hsourced src req (hrest ▸ List.mem_cons_self)
      have htail : Sourced (Function.update queues src (queues src).tail) :=
        fun s req' hreq => hsourced s req' (mem_of_mem_tail hreq)
      dsimp only
      rw [ih htail, List.map_cons, serveAll, serveAll, List.foldl_cons, hleaf]

theorem arbitrate_examined {requests : List (Request n)} {fuel : Nat}
    (hfuel : requests.length ≤ fuel) (g : Grants n) :
    arbitrate cfg fuel (srcQueues requests) g = serveAll cfg (examined requests) g := by
  have hsize := size_srcQueues requests
  rw [arbitrate_eq fuel (sourced_srcQueues requests), examined,
    merge_fuel picks_bestHead (hsize.le.trans hfuel) hsize.le]

/-! ## 4. The search -/

section

variable {fits : Slot → Bool} {span base : Nat}

theorem windowFits_iff {start : Nat} (hspan : span < 2 ^ 64) :
    WindowFits fits (fun s => u64 (s + span)) start ↔
      2 ^ 64 ≤ start + span ∨ ∀ u, start ≤ u → u < start + span → fits u = true := by
  simp only [WindowFits, mem_window]
  rcases Nat.lt_or_ge (start + span) (2 ^ 64) with hlt | hge
  · rw [u64_of_lt hlt]
    simp only [Nat.not_le.mpr hlt, false_or, and_imp]
  · have hempty := u64_add_le hspan hge
    exact ⟨fun _ => .inl hge, fun _ u hu => by omega⟩

/-- Of the windows that have room, the first one is behind a slot without or at the base. -/
theorem first_room {start : Nat} (hbase : base ≤ start)
    (hroom : ∀ u, start ≤ u → u < start + span → fits u = true) :
    ∃ first, base ≤ first ∧ first ≤ start ∧ (∀ u, first ≤ u → u < first + span → fits u = true) ∧
      (first = base ∨ fits (first - 1) = false) := by
  induction hn : start - base generalizing start with
  | zero =>
    obtain rfl : start = base := by omega
    exact ⟨start, le_rfl, le_rfl, hroom, .inl rfl⟩
  | succ k ih =>
    cases hprev : fits (start - 1) with
    | false => exact ⟨start, hbase, le_rfl, hroom, .inr hprev⟩
    | true =>
      have hroom' : ∀ u, start - 1 ≤ u → u < start - 1 + span → fits u = true := fun u hu hlt => by
        rcases Nat.lt_or_ge u start with h | h
        · obtain rfl : u = start - 1 := by omega
          exact hprev
        · exact hroom u h (by omega)
      obtain ⟨first, hfirst, hle, hrest⟩ := ih (by omega) hroom' (by omega)
      exact ⟨first, hfirst, by omega, hrest⟩

/-- When a search over `m_Wsearch` start slots finds something: the end of its range stays in 64
bits, and some window has room or it comes to one that wraps. -/
theorem searchSlots_isSome_iff (hspan : span < 2 ^ 64) :
    (searchSlots fits span base).isSome ↔ base + wSearch < 2 ^ 64 ∧
      ((∃ start, base ≤ start ∧ start < base + wSearch ∧
          ∀ u, start ≤ u → u < start + span → fits u = true) ∨
        ∃ start, base ≤ start ∧ start < base + wSearch ∧ 2 ^ 64 ≤ start + span ∧
          (start = base ∨ fits (start - 1) = false)) := by
  rw [searchSlots, search_isSome_iff]
  rcases Nat.lt_or_ge (base + wSearch) (2 ^ 64) with hlt | hge
  · rw [u64_of_lt hlt]
    simp only [hlt, true_and, windowFits_iff hspan]
    constructor
    · rintro ⟨start, hstart, hstop, hwrap | hroom, hbehind⟩
      · exact .inr ⟨start, hstart, hstop, hwrap, hbehind⟩
      · exact .inl ⟨start, hstart, hstop, hroom⟩
    · rintro (⟨start, hstart, hstop, hroom⟩ | ⟨start, hstart, hstop, hwrap, hbehind⟩)
      · obtain ⟨first, hfirst, hle, hfits, hbehind⟩ := first_room hstart hroom
        exact ⟨first, hfirst, hle.trans_lt hstop, .inr hfits, hbehind⟩
      · exact ⟨start, hstart, hstop, .inl hwrap, hbehind⟩
  · have hwrapped := u64_add_le (x := base) (by decide : wSearch < 2 ^ 64) hge
    constructor
    · rintro ⟨start, hstart, hstop, -⟩
      exact absurd (hstart.trans_lt hstop) (Nat.not_lt.mpr hwrapped)
    · rintro ⟨hlt, -⟩
      exact absurd hlt (Nat.not_lt.mpr hge)

end

/-- A request is granted as it should be, unless the search leaves the 64 bits where that matters. -/
theorem granted_iff_hasRoom_iff {g : Grants n} {req : Request n} (hspan : req.span < 2 ^ 64) :
    (Granted cfg g req ↔ HasRoom cfg g req) ↔ ¬ Wraps cfg g req := by
  have hsome : Granted cfg g req ↔ req.earliestSlot + wSearch < 2 ^ 64 ∧
      (HasRoom cfg g req ∨ ∃ start, req.earliestSlot ≤ start ∧
        start < req.earliestSlot + wSearch ∧ 2 ^ 64 ≤ start + req.span ∧ (start = req.earliestSlot ∨
            getFree g.provisionalDstFree (start - 1) cfg.capacityPerSlot < req.foot)) := by
    have hsearch := @searchSlots_isSome_iff (dstFits cfg g.provisionalDstFree req) req.span
      req.earliestSlot hspan
    simp only [dstFits, decide_eq_true_eq, decide_eq_false_iff_not, Nat.not_le] at hsearch
    exact hsearch
  rw [hsome, Wraps]
  rcases Nat.lt_or_ge (req.earliestSlot + wSearch) (2 ^ 64) with hlt | hge
  · rw [if_neg (Nat.not_le.mpr hlt)]
    by_cases hroom : HasRoom cfg g req
    · simp only [hroom, hlt, true_or, and_self, not_true, false_and, not_false_eq_true]
    · simp only [hroom, hlt, false_or, true_and, iff_false, not_false_eq_true]
  · rw [if_pos hge]
    simp only [Nat.not_lt.mpr hge, false_and, false_iff]

theorem not_wraps_of_fits {g : Grants n} {req : Request n}
    (h : req.earliestSlot + wSearch + req.span < 2 ^ 64) : ¬ Wraps cfg g req := by
  have hend : req.earliestSlot + wSearch < 2 ^ 64 := lt_of_le_of_lt (Nat.le_add_right _ _) h
  rw [Wraps, if_neg (Nat.not_le.mpr hend)]
  rintro ⟨-, start, hstart, hstop, hwrap, -⟩
  exact absurd ((Nat.add_lt_add_right hstop _).trans h) (Nat.not_lt.mpr hwrap)

/-! ## 5. The requests of an epoch -/

theorem requestsTo_eq (st : State n) (d : Leaf) : requestsTo cfg sort now st d =
    (List.finRange n).flatMap fun i => (requestsOf cfg sort now i (st.brokers i)).2 d := by
  rw [requestsTo, requestPhases_eq cfg sort now (List.nodup_finRange n)]
  rfl

theorem srcLeaf_requestsOf {i : Fin n} {lb : LeafBroker} {d : Leaf} {req : Request n}
    (hreq : req ∈ (requestsOf cfg sort now i lb).2 d) : req.srcLeaf = i := by
  have hkeys := requestsOf_keys cfg sort now Request.srcLeaf (fun _ => i) i (fun _ _ _ => rfl) lb d
  have hmem := hkeys.subset (List.mem_map_of_mem hreq)
  obtain ⟨_, -, heq⟩ := List.mem_map.mp hmem
  exact heq.symm

theorem srcQueues_requestsTo (st : State n) (d : Leaf) (s : Fin n) :
    srcQueues (requestsTo cfg sort now st d) s =
      (requestsOf cfg sort now s (st.brokers s)).2 d := by
  rw [requestsTo_eq, srcQueues, List.filter_flatMap, queues_alone (i := s)]
  · exact List.filter_eq_self.mpr fun req hreq => decide_eq_true (srcLeaf_requestsOf hreq)
  · intro i hi
    refine List.filter_eq_nil_iff.mpr fun req hreq heq => hi ?_
    rw [← srcLeaf_requestsOf hreq]
    exact of_decide_eq_true heq

theorem sorted_requestsOf (i : Fin n) (lb : LeafBroker) (d : Leaf) :
    ((requestsOf cfg sort now i lb).2 d).Pairwise fun a b => ¬ b.Before a := by
  have hkeys := requestsOf_keys cfg sort now (fun req => (req.prio, req.tPred))
    (fun e => (e.prio, e.tPred)) i (fun _ _ _ => rfl) lb d
  have hevents : ((sort.run (requestEvents cfg now lb)).map fun e => (e.prio, e.tPred)).Pairwise
      fun k k' => k.1 < k'.1 ∨ (k.1 = k'.1 ∧ k.2 ≤ k'.2) :=
    List.pairwise_map.mpr ((sort.isSortOf _).2.imp not_eventLess.mp)
  refine (List.pairwise_map.mp (hevents.sublist hkeys)).imp_of_mem fun {a b} ha hb hab => ?_
  have hleaf : a.srcLeaf = b.srcLeaf := (srcLeaf_requestsOf ha).trans (srcLeaf_requestsOf hb).symm
  rw [not_before_iff, Request.key, Request.key, Prod.Lex.toLex_le_toLex, hleaf]
  refine hab.imp_right fun ⟨hprio, htime⟩ => ⟨hprio, Prod.Lex.toLex_le_toLex.mpr ?_⟩
  exact (lt_or_eq_of_le htime).imp_right fun heq => ⟨heq, le_rfl⟩

theorem span_observe (cfg : Config) (now : Time) (e : LocalEvent) :
    (observe cfg now e).span = e.span := by
  unfold observe
  split <;> rfl

theorem span_requestsTo {st : State n} {d : Leaf} {req : Request n}
    (hreq : req ∈ requestsTo cfg sort now st d) :
    ∃ i, ∃ e ∈ (st.brokers i).events, req.span = e.span := by
  rw [requestsTo_eq] at hreq
  obtain ⟨i, -, hi⟩ := List.mem_flatMap.mp hreq
  have hkeys := requestsOf_keys cfg sort now Request.span LocalEvent.span i (fun _ _ _ => rfl)
    (st.brokers i) d
  obtain ⟨e', he', heq⟩ := List.mem_map.mp (hkeys.subset (List.mem_map_of_mem hi))
  rw [(sort.isSortOf _).mem_iff, requestEvents_eq] at he'
  obtain ⟨kv, hkv, rfl⟩ := List.mem_map.mp he'
  refine ⟨i, kv.2, List.mem_map_of_mem (List.mem_of_mem_filter hkv), ?_⟩
  rw [← heq, span_observe]

/-! ## 6. The arbitration -/

/-- In every epoch, from whatever has been granted before, the loop of a destination merges the
requests and grants those that have room, if and only if no search for one of them leaves the 64
bits of a slot number where that matters. -/
theorem arbitrated_iff {st : State n} (hspan : ∀ i, ∀ e ∈ (st.brokers i).events, e.span < 2 ^ 32)
    (d : Leaf) (g : Grants n) : Arbitrated cfg (requestsTo cfg sort now st d) g ↔
      ∀ before req after, examined (requestsTo cfg sort now st d) = before ++ req :: after →
        ¬ Wraps cfg (serveAll cfg before g) req := by
  have hgrants : ∀ before req after,
      examined (requestsTo cfg sort now st d) = before ++ req :: after →
        ((Granted cfg (serveAll cfg before g) req ↔ HasRoom cfg (serveAll cfg before g) req) ↔
          ¬ Wraps cfg (serveAll cfg before g) req) := fun before req after hexamined => by
    have hmem : req ∈ requestsTo cfg sort now st d := by
      rw [← (examined_perm _).mem_iff, hexamined]
      exact List.mem_append_right _ List.mem_cons_self
    obtain ⟨i, e, he, heq⟩ := span_requestsTo hmem
    exact granted_iff_hasRoom_iff (heq ▸ (hspan i e he).trans (by decide))
  refine ⟨fun h before req after hexamined =>
    (hgrants before req after hexamined).mp (h.grants before req after hexamined), fun h => ?_⟩
  exact {
    once := examined_perm _
    sorted := examined_sorted fun s => srcQueues_requestsTo st d s ▸ sorted_requestsOf s _ d
    inOrder := srcQueues_examined _
    ends := fun fuel hfuel => arbitrate_examined hfuel g
    grants := fun before req after hexamined =>
      (hgrants before req after hexamined).mpr (h before req after hexamined) }

/-- What a destination starts from in an epoch. -/
def firstGrants (lb : LeafBroker) : Grants n :=
  { lb := { lb with nextPhase := fun _ => none }, provisionalDstFree := lb.dstFree }

/-- With both rivals of leaf 1 reported, it examines both of their requests. -/
theorem arbitrated_rivals :
    ((examined (requestsTo rivalsCfg rivalsSort 1000000 (reported 2 narrow (reported 0 wide {}))
      1)).map (·.eId)) = [8589934594, 1] ∧
    Arbitrated rivalsCfg
      (requestsTo rivalsCfg rivalsSort 1000000 (reported 2 narrow (reported 0 wide {})) 1)
      (firstGrants {}) := by
  have hspan : ∀ i, ∀ e ∈ ((reported 2 narrow (reported 0 wide {})).brokers i).events,
      e.span < 2 ^ 32 := by decide +kernel
  have hslots : ∀ req ∈ requestsTo rivalsCfg rivalsSort 1000000
      (reported 2 narrow (reported 0 wide {})) 1,
      req.earliestSlot + wSearch + req.span < 2 ^ 64 := by decide +kernel
  refine ⟨by decide +kernel, (arbitrated_iff hspan 1 _).mpr fun before req after hexamined => ?_⟩
  refine not_wraps_of_fits (hslots req ((examined_perm _).mem_iff.mp ?_))
  rw [hexamined]
  exact List.mem_append_right _ List.mem_cons_self

/-! ## 7. A free window that is refused -/

/-- Ten bytes for leaf 1, predicted for 1001 slots before the start. -/
def earlyTask (taskId : TaskId) : MoeTask :=
  { taskTo taskId ((∅ : FlowMap).insert 1 10) with startTime := -1001 / 100000 }

/-- The state after rank 0 has reported two of them. -/
@[irreducible] def early : State rivalsCfg.numLeafs :=
  reported 0 (earlyTask 2) (reported 0 (earlyTask 1) {})

theorem run_early : Run rivalsCfg rivalsSort (fun _ => True) {} ⟨early, 0⟩ ∧
    early.timer = some 1000000 := by
  obtain ⟨hrun, htimer⟩ : Run rivalsCfg rivalsSort (fun _ => True) {}
      ⟨reported 0 (earlyTask 1) {}, 0⟩ ∧ (reported 0 (earlyTask 1) {}).timer = some epochLength :=
    run_reported .refl (le_refl _) (by decide) trivial
  obtain ⟨hrun', htimer'⟩ : Run rivalsCfg rivalsSort (fun _ => True) {}
      ⟨reported 0 (earlyTask 2) (reported 0 (earlyTask 1) {}), 0⟩ ∧
      (reported 0 (earlyTask 2) (reported 0 (earlyTask 1) {})).timer =
        some ((reported 0 (earlyTask 1) {}).timer.getD epochLength) :=
    run_reported hrun (by rw [htimer]; decide) (by decide) trivial
  rw [htimer] at htimer'
  unfold early
  exact ⟨hrun', htimer'⟩

/-- In the first epoch the end of the search range of the second request wraps. Its first slot is
free at leaf 1, but it is not granted. -/
theorem free_window_refused : Reachable rivalsCfg rivalsSort ⟨early, 0⟩ ∧
    early.timer = some 1000000 ∧
    ¬ Arbitrated rivalsCfg (requestsTo rivalsCfg rivalsSort 1000000 early 1)
      (firstGrants (early.brokers ⟨1, by decide⟩)) := by
  obtain ⟨hrun, htimer⟩ := run_early
  refine ⟨Run.reachable hrun .init, htimer, fun h => ?_⟩
  obtain ⟨a, b, hab⟩ : ∃ a b, examined (requestsTo rivalsCfg rivalsSort 1000000 early 1) = [a, b] :=
    List.length_eq_two.mp (by decide +kernel)
  have hsecond : ((examined (requestsTo rivalsCfg rivalsSort 1000000 early 1))[1]?.map fun b =>
      let g := serveAll rivalsCfg
        ((examined (requestsTo rivalsCfg rivalsSort 1000000 early 1)).take 1)
        (firstGrants (early.brokers ⟨1, by decide⟩))
      ((grantStart rivalsCfg g.provisionalDstFree b).isSome, b.span,
        decide (b.foot ≤ getFree g.provisionalDstFree b.earliestSlot rivalsCfg.capacityPerSlot))) =
      some (false, 1, true) := by decide +kernel
  rw [hab] at hsecond
  simp only [List.getElem?_cons_succ, List.getElem?_cons_zero, Option.map_some, List.take_succ_cons,
    List.take_zero, Option.some.injEq, Prod.mk.injEq] at hsecond
  obtain ⟨hrefused, hspan, hfree⟩ := hsecond
  have hroom : HasRoom rivalsCfg (serveAll rivalsCfg [a] (firstGrants (early.brokers ⟨1, by decide⟩)))
      b := by
    refine ⟨b.earliestSlot, le_rfl, Nat.lt_add_of_pos_right (by decide), fun u hu hlt => ?_⟩
    obtain rfl : u = b.earliestSlot := by
      rw [hspan] at hlt
      exact le_antisymm (Nat.le_of_lt_succ hlt) hu
    exact of_decide_eq_true hfree
  have hgranted := (h.grants [a] b [] hab).mpr hroom
  rw [Granted, hrefused] at hgranted
  cases hgranted

end MoeJit.DistributedAging
