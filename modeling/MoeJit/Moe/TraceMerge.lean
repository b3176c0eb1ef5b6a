import MoeJit.Lib.FallibleRun
import MoeJit.Lib.Grid
import MoeJit.Moe.TraceParser

/-!
# Merging the traces of all ranks

The part of `MoeTraceParser::LoadTraces` that merges the events of all ranks into global events. The
matrix of an event is filled from what the senders say and then checked against what the receivers
expect.

`merge_safe_iff`: an access is outside of a vector exactly if some rank lacks an event of rank 0,
which only the first of the two loops looks at, or has a negative rank as a key.
`consistent_iff`: the flag of an event is right exactly if, where every entry of the receivers is as
sent, none is missing for bytes that are sent.
-/

namespace MoeJit.TraceParser

open Words Grid List
open Option (bind_some getD_none getD_some isSome_iff_exists)
open Std.TreeMap (mem_iff_isSome_getElem? mem_keys mem_toList_iff_getElem?_eq_some)

/-! ## 1. Model -/

/-- `MoeGlobalEvent`. `LoadTraces` does not set the delay. -/
structure MoeGlobalEvent where
  globalId : Nat
  batchId : Int
  op : String
  startTime : Rat
  endTime : Rat
  computationDelay : Option Rat := none
  /-- `trafficMatrix[src][dst]` = bytes -/
  trafficMatrix : List (List Nat)
  isConsistent : Bool
  consistencyError : String := ""

/-- The event of rank 0 with an empty matrix. -/
def initEvent (num_nodes i : Nat) (rev : MoeRawEvent) : MoeGlobalEvent where
  globalId := u32 i
  batchId := rev.batchId
  op := rev.op
  startTime := rev.startTime
  endTime := rev.endTime
  trafficMatrix := Grid.fill num_nodes 0
  isConsistent := true

/-- The entry of a sender. -/
def populateEntry (num_nodes r : Nat) (matrix : List (List Nat)) (entry : Int × Nat) :
    Except Failure (List (List Nat)) :=
  if entry.1 < num_nodes then Grid.write matrix r entry.1 entry.2 else .ok matrix

/-- The loop that populates the matrix, for rank `r` with its events. -/
def populate (num_nodes i : Nat) (gev : MoeGlobalEvent) (rank : List MoeRawEvent × Nat) :
    Except Failure MoeGlobalEvent :=
  let (events, r) := rank
  match events[i]? with
  | none => .ok { gev with
      isConsistent := false
      consistencyError := s!"Rank {r} missing event {i}" }
  | some rev => do
    let matrix ← rev.sendBytes.toList.foldlM (populateEntry num_nodes r) gev.trafficMatrix
    return { gev with trafficMatrix := matrix }

/-- The entry of a receiver. -/
def verifyEntry (num_nodes i r : Nat) (gev : MoeGlobalEvent) (entry : Int × Nat) :
    Except Failure MoeGlobalEvent :=
  let (src, expected) := entry
  if src < num_nodes then do
    let sender_says ← Grid.read gev.trafficMatrix src r
    if sender_says ≠ expected then
      return { gev with
        isConsistent := false
        consistencyError := gev.consistencyError ++ s!"Mismatch at Event {i} Src:{src}->Dst:{r} " ++
          s!"Send:{sender_says} Recv:{expected}; " }
    else return gev
  else return gev

/-- The loop that verifies, for rank `r`. It does not look whether the rank has the event. -/
def verify (num_nodes i : Nat) (gev : MoeGlobalEvent) (rank : List MoeRawEvent × Nat) :
    Except Failure MoeGlobalEvent :=
  let (events, r) := rank
  match events[i]? with
  | none => .error .outOfRange
  | some rev => rev.recvBytes.toList.foldlM (verifyEntry num_nodes i r) gev

/-- The body of the loop over the events of rank 0. -/
def mergeEvent (all_rank_events : List (List MoeRawEvent)) (event : MoeRawEvent × Nat) :
    Except Failure MoeGlobalEvent := do
  let (rev, i) := event
  let num_nodes := all_rank_events.length
  let gev ← all_rank_events.zipIdx.foldlM (populate num_nodes i) (initEvent num_nodes i rev)
  all_rank_events.zipIdx.foldlM (verify num_nodes i) gev

/-- `global_events`. Without files there are none. -/
def merge (all_rank_events : List (List MoeRawEvent)) : Except Failure (List MoeGlobalEvent) :=
  (all_rank_events.headD []).zipIdx.mapM (mergeEvent all_rank_events)

/-! ## 2. Statements -/

section

variable (ranks : List (List MoeRawEvent)) (i : Nat)

/-- Event `i` of rank `r`. -/
def eventOf (r : Nat) : Option MoeRawEvent := ranks[r]?.bind (·[i]?)

/-- The bytes that `s` says it sends to `d`: none without an entry. -/
def sent (s d : Nat) : Nat := ((eventOf ranks i s).bind (·.sendBytes[(d : Int)]?)).getD 0

/-- The entry of `d` for what it expects from `s`. -/
def expected (s d : Nat) : Option Nat := (eventOf ranks i d).bind (·.recvBytes[(s : Int)]?)

/-- Every rank has the event, and no key in it is negative. -/
def Indexable : Prop :=
  ∀ events ∈ ranks, ∃ rev, events[i]? = some rev ∧
    (∀ target ∈ rev.sendBytes, 0 ≤ target) ∧ ∀ src ∈ rev.recvBytes, 0 ≤ src

/-- What senders and receivers say agrees, a missing entry counting as no bytes. -/
def Agreed : Prop :=
  ∀ s < ranks.length, ∀ d < ranks.length, sent ranks i s d = (expected ranks i s d).getD 0

/-- Some entry of a receiver is not as sent. -/
def Mismatched : Prop :=
  ∃ s < ranks.length, ∃ d < ranks.length, ∃ bytes, expected ranks i s d = some bytes ∧
    sent ranks i s d ≠ bytes

/-- Nothing is sent where the receiver has no entry. -/
def NothingMissing : Prop :=
  ∀ s < ranks.length, ∀ d < ranks.length, expected ranks i s d = none → sent ranks i s d = 0

/-- One event for each of rank 0, with the flag down where a rank lacks the event. -/
structure Merged (gevs : List MoeGlobalEvent) : Prop where
  length_eq : gevs.length = (ranks.headD []).length
  lacking : ∀ (i : Nat) (gev : MoeGlobalEvent), gevs[i]? = some gev →
    (∃ events ∈ ranks, events[i]? = none) → gev.isConsistent = false

end

/-! ## 3. The loop over the senders -/

variable {gev : MoeGlobalEvent}

section

variable {ranks : List (List MoeRawEvent)} {i r n : Nat} {rev : MoeRawEvent}

theorem populateEntry_ok {m : List (List Nat)} {entry : Int × Nat} (hm : Square n m) (hr : r < n)
    (hkey : 0 ≤ entry.1) : ∃ m', populateEntry n r m entry = .ok m' ∧ Square n m' ∧
      ∀ s d, d < n → cell m' s d = if s = r ∧ (d : Int) = entry.1 then some entry.2 else cell m s d := by
  obtain ⟨target, bytes⟩ := entry
  obtain ⟨t, rfl⟩ := Int.eq_ofNat_of_zero_le hkey
  rw [populateEntry]
  by_cases ht : t < n
  · rw [if_pos (Int.ofNat_lt.mpr ht)]
    obtain ⟨m', hwrite, hm', hcell⟩ := write_ok hm hr ht bytes
    exact ⟨m', hwrite, hm', fun s d _ => by simp only [hcell, Int.natCast_inj]⟩
  · rw [if_neg fun hlt => ht (Int.ofNat_lt.mp hlt)]
    refine ⟨m, rfl, hm, fun s d hd => (if_neg ?_).symm⟩
    rintro ⟨-, hdt⟩
    exact ht (Int.natCast_inj.mp hdt ▸ hd)

/-- A matrix into which the entries with some keys of a sender have been written. -/
structure Written (n r : Nat) (rev : MoeRawEvent) (m : List (List Nat)) (keys : List Int)
    (m' : List (List Nat)) : Prop where
  square : Square n m'
  cells : ∀ s d, d < n → cell m' s d =
    if s = r ∧ (d : Int) ∈ keys then rev.sendBytes[(d : Int)]? else cell m s d

theorem Written.step {m m₁ : List (List Nat)} {keys : List Int} {entry : Int × Nat}
    (h : Written n r rev m keys m₁) (hr : r < n) (hkeys : ∀ target ∈ rev.sendBytes, 0 ≤ target)
    (hentry : entry ∈ rev.sendBytes.toList) :
    ∃ m₂, populateEntry n r m₁ entry = .ok m₂ ∧ Written n r rev m (keys ++ [entry.1]) m₂ := by
  have hfound : rev.sendBytes[entry.1]? = some entry.2 := mem_toList_iff_getElem?_eq_some.mp hentry
  have hmem : entry.1 ∈ rev.sendBytes := mem_iff_isSome_getElem?.mpr (by simp [hfound])
  obtain ⟨m₂, hok, hm₂, hcell₂⟩ := populateEntry_ok h.square hr (hkeys _ hmem)
  refine ⟨m₂, hok, hm₂, fun s d hd => ?_⟩
  rw [hcell₂ s d hd, h.cells s d hd]
  by_cases hkey : (d : Int) = entry.1
  · by_cases hs : s = r
    · simp [hkey, hs, hfound]
    · simp [hs]
  · simp [hkey]

theorem populateEntries_ok {m : List (List Nat)} (hm : Square n m) (hr : r < n)
    (hkeys : ∀ target ∈ rev.sendBytes, 0 ≤ target) :
    ∃ m', rev.sendBytes.toList.foldlM (populateEntry n r) m = .ok m' ∧
      Written n r rev m rev.sendBytes.keys m' := by
  rw [← Std.TreeMap.map_fst_toList_eq_keys]
  refine foldlM_prefix (fun taken => Written n r rev m (taken.map Prod.fst))
    ⟨hm, fun s d _ => (if_neg fun h => not_mem_nil h.2).symm⟩ fun taken entry m₁ htaken h => ?_
  rw [map_append, map_singleton]
  exact h.step hr hkeys (htaken.subset (by simp))

/-- The global event after the rows of some ranks have been populated. -/
structure Populated (ranks : List (List MoeRawEvent)) (i k : Nat) (gev : MoeGlobalEvent) :
    Prop where
  square : Square ranks.length gev.trafficMatrix
  flag : gev.isConsistent = true
  cells : ∀ s < ranks.length, ∀ d < ranks.length, cell gev.trafficMatrix s d =
    some (if s < k then sent ranks i s d else 0)

theorem eventOf_of {events : List MoeRawEvent} (hr : ranks[r]? = some events) :
    eventOf ranks i r = events[i]? := by
  rw [eventOf, hr, bind_some]

theorem Populated.step {events : List MoeRawEvent} {gev : MoeGlobalEvent}
    (h : Populated ranks i r gev) (hr : ranks[r]? = some events) (hi : Indexable ranks i) :
    ∃ gev', populate ranks.length i gev (events, r) = .ok gev' ∧ Populated ranks i (r + 1) gev' := by
  obtain ⟨rev, hrev, hsend, -⟩ := hi events (mem_of_getElem? hr)
  obtain ⟨m', hok, hm'⟩ := populateEntries_ok h.square (List.getElem?_eq_some_iff.mp hr).1 hsend
  refine ⟨{ gev with trafficMatrix := m' }, ?_, hm'.square, h.flag, fun s hs d hd => ?_⟩
  · rw [populate, hrev]
    exact except_bind_eq_ok.mpr ⟨m', hok, rfl⟩
  · show cell m' s d = _
    rw [hm'.cells s d hd, h.cells s hs d hd]
    rcases Nat.lt_trichotomy s r with hlt | rfl | hgt
    · rw [if_neg fun h => hlt.ne h.1, if_pos hlt, if_pos (hlt.trans (Nat.lt_succ_self r))]
    · rw [if_neg (lt_irrefl s), if_pos (Nat.lt_succ_self s), sent, eventOf_of hr, hrev, bind_some]
      by_cases hd : (d : Int) ∈ rev.sendBytes
      · obtain ⟨bytes, hbytes⟩ := isSome_iff_exists.mp (mem_iff_isSome_getElem?.mp hd)
        rw [if_pos ⟨rfl, mem_keys.mpr hd⟩, hbytes, getD_some]
      · rw [if_neg fun h => hd (mem_keys.mp h.2), Std.TreeMap.getElem?_eq_none hd, getD_none]
    · rw [if_neg fun h => hgt.ne' h.1, if_neg hgt.le.not_gt, if_neg (not_lt.mpr hgt)]

/-! ## 4. The loop over the receivers -/

theorem verifyEntry_ok {entry : Int × Nat} (hgev : Square n gev.trafficMatrix) (hr : r < n)
    (hkey : 0 ≤ entry.1) :
    ∃ gev', verifyEntry n i r gev entry = .ok gev' ∧ gev'.trafficMatrix = gev.trafficMatrix ∧
      (gev'.isConsistent = true ↔ gev.isConsistent = true ∧
        ∀ s < n, (s : Int) = entry.1 → cell gev.trafficMatrix s r = some entry.2) := by
  obtain ⟨src, bytes⟩ := entry
  obtain ⟨s, rfl⟩ := Int.eq_ofNat_of_zero_le hkey
  by_cases hs : s < n
  · obtain ⟨said, hread, hcell⟩ := read_ok hgev hs hr
    have hentry : (∀ s' < n, (s' : Int) = s → cell gev.trafficMatrix s' r = some bytes) ↔
        said = bytes := by
      constructor
      · intro h
        exact Option.some.inj (hcell.symm.trans (h s hs rfl))
      · rintro rfl s' - heq
        rw [Int.natCast_inj.mp heq, hcell]
    by_cases hsaid : said = bytes
    · refine ⟨gev, ?_, rfl, (and_iff_left (hentry.mpr hsaid)).symm⟩
      rw [verifyEntry, if_pos (Int.ofNat_lt.mpr hs), hread]
      exact if_neg (not_not.mpr hsaid)
    · rw [verifyEntry, if_pos (Int.ofNat_lt.mpr hs), hread]
      exact ⟨_, if_pos hsaid, rfl, iff_of_false Bool.false_ne_true fun h => hsaid (hentry.mp h.2)⟩
  · refine ⟨gev, if_neg fun h => hs (Int.ofNat_lt.mp h), rfl, (and_iff_left ?_).symm⟩
    rintro s' hs' heq
    exact absurd (Int.natCast_inj.mp heq ▸ hs') hs

/-- The global event after some entries of a receiver have been verified: the flag is down if one
is not as sent. -/
structure Compared (n r : Nat) (gev : MoeGlobalEvent) (entries : List (Int × Nat))
    (gev' : MoeGlobalEvent) : Prop where
  matrix : gev'.trafficMatrix = gev.trafficMatrix
  flag : gev'.isConsistent = true ↔ gev.isConsistent = true ∧ ∀ entry ∈ entries, ∀ s < n,
    (s : Int) = entry.1 → cell gev.trafficMatrix s r = some entry.2

theorem verifyEntries_ok (hgev : Square n gev.trafficMatrix) (hr : r < n)
    (hkeys : ∀ src ∈ rev.recvBytes, 0 ≤ src) :
    ∃ gev', rev.recvBytes.toList.foldlM (verifyEntry n i r) gev = .ok gev' ∧
      Compared n r gev rev.recvBytes.toList gev' := by
  refine foldlM_prefix (Compared n r gev)
    ⟨rfl, (and_iff_left fun _ h => absurd h not_mem_nil).symm⟩ fun taken entry gev₁ htaken h => ?_
  have hentry : entry ∈ rev.recvBytes.toList := htaken.subset (by simp)
  have hmem : entry.1 ∈ rev.recvBytes := mem_iff_isSome_getElem?.mpr
    (by simp [mem_toList_iff_getElem?_eq_some.mp hentry])
  obtain ⟨gev₂, hok, hmatrix, hflag⟩ :=
    verifyEntry_ok (i := i) (h.matrix.symm ▸ hgev) hr (hkeys entry.1 hmem)
  refine ⟨gev₂, hok, hmatrix.trans h.matrix, ?_⟩
  rw [hflag, h.matrix, h.flag, and_assoc, forall_mem_append, forall_mem_singleton]

/-- The global event after some ranks have been verified. -/
structure Checked (ranks : List (List MoeRawEvent)) (i k : Nat) (gev : MoeGlobalEvent) : Prop where
  square : Square ranks.length gev.trafficMatrix
  cells : ∀ s < ranks.length, ∀ d < ranks.length,
    cell gev.trafficMatrix s d = some (sent ranks i s d)
  flag : gev.isConsistent = true ↔ ∀ d < k, ∀ s < ranks.length, ∀ bytes,
    expected ranks i s d = some bytes → sent ranks i s d = bytes

theorem Checked.step {events : List MoeRawEvent} {gev : MoeGlobalEvent}
    (h : Checked ranks i r gev) (hr : ranks[r]? = some events) (hi : Indexable ranks i) :
    ∃ gev', verify ranks.length i gev (events, r) = .ok gev' ∧ Checked ranks i (r + 1) gev' := by
  obtain ⟨rev, hrev, -, hrecv⟩ := hi events (mem_of_getElem? hr)
  have hlt : r < ranks.length := (List.getElem?_eq_some_iff.mp hr).1
  obtain ⟨gev', hok, hgev'⟩ := verifyEntries_ok (i := i) h.square hlt hrecv
  have hexpected : ∀ s, expected ranks i s r = rev.recvBytes[(s : Int)]? := fun s => by
    rw [expected, eventOf_of hr, hrev, bind_some]
  refine ⟨gev', ?_, hgev'.matrix.symm ▸ h.square, fun s hs d hd => ?_, ?_⟩
  · rw [verify, hrev]
    exact hok
  · rw [hgev'.matrix, h.cells s hs d hd]
  · rw [hgev'.flag, h.flag, Nat.forall_lt_succ_right]
    refine and_congr_right fun _ => ?_
    constructor
    · intro hentries s hs bytes hbytes
      rw [hexpected] at hbytes
      have hcell := hentries (s, bytes) (mem_toList_iff_getElem?_eq_some.mpr hbytes) s hs rfl
      exact Option.some.inj ((h.cells s hs r hlt).symm.trans hcell)
    · rintro hentries ⟨src, bytes⟩ hentry s hs rfl
      rw [h.cells s hs r hlt, hentries s hs bytes ((hexpected s).trans
        (mem_toList_iff_getElem?_eq_some.mp hentry))]

/-! ## 5. The merge -/

theorem loop_ok {step : MoeGlobalEvent → List MoeRawEvent × Nat → Except Failure MoeGlobalEvent}
    (Inv : Nat → MoeGlobalEvent → Prop) (h : Inv 0 gev)
    (hstep : ∀ gev r events, Inv r gev → ranks[r]? = some events →
      ∃ gev', step gev (events, r) = .ok gev' ∧ Inv (r + 1) gev') :
    ∃ gev', ranks.zipIdx.foldlM step gev = .ok gev' ∧ Inv ranks.length gev' := by
  have htake : ∀ taken rank gev, taken ++ [rank] <+: ranks.zipIdx → Inv taken.length gev →
      ∃ gev', step gev rank = .ok gev' ∧ Inv (taken ++ [rank]).length gev' := by
    rintro taken rank gev ⟨rest, hrest⟩ hInv
    have hget : ranks.zipIdx[taken.length]? = some rank := by
      rw [← hrest, append_assoc]
      simp
    rw [getElem?_zipIdx, zero_add] at hget
    obtain ⟨events, hevents, rfl⟩ := Option.map_eq_some_iff.mp hget
    rw [length_append, length_singleton]
    exact hstep gev _ events hInv hevents
  obtain ⟨gev', hok, hgev'⟩ := foldlM_prefix (fun taken => Inv taken.length) h htake
  exact ⟨gev', hok, length_zipIdx ▸ hgev'⟩

theorem populated_init (rev : MoeRawEvent) :
    Populated ranks i 0 (initEvent ranks.length i rev) where
  square := square_fill _ 0
  flag := rfl
  cells _ hs _ hd := cell_fill hs hd

/-- The flag says whether all entries of the receivers are as sent. -/
theorem mergeEvent_ok (rev : MoeRawEvent) (hi : Indexable ranks i) :
    ∃ gev, mergeEvent ranks (rev, i) = .ok gev ∧
      (gev.isConsistent = true ↔ ¬Mismatched ranks i) := by
  obtain ⟨gev₁, hok₁, hgev₁⟩ := loop_ok (Populated ranks i) (populated_init rev)
    fun gev r events h hr => h.step hr hi
  have hchecked : Checked ranks i 0 gev₁ := ⟨hgev₁.square, fun s hs d hd => by
    rw [hgev₁.cells s hs d hd, if_pos hs], iff_of_true hgev₁.flag (by simp)⟩
  obtain ⟨gev₂, hok₂, hgev₂⟩ := loop_ok (Checked ranks i) hchecked
    fun gev r events h hr => h.step hr hi
  refine ⟨gev₂, except_bind_eq_ok.mpr ⟨gev₁, hok₁, hok₂⟩, hgev₂.flag.trans ?_⟩
  constructor
  · rintro h ⟨s, hs, d, hd, bytes, hbytes, hne⟩
    exact hne (h d hd s hs bytes hbytes)
  · intro h d hd s hs bytes hbytes
    by_contra hne
    exact h ⟨s, hs, d, hd, bytes, hbytes, hne⟩

/-- A merge that makes only valid accesses has an event of every rank, without negative keys. -/
theorem indexable_of_mergeEvent (h : mergeEvent ranks (rev, i) = .ok gev) : Indexable ranks i := by
  obtain ⟨gev₁, hpopulate, hverify⟩ := except_bind_eq_ok.mp h
  intro events hevents
  obtain ⟨r, hr⟩ := getElem?_of_mem hevents
  have hrank : (events, r) ∈ ranks.zipIdx := by
    refine mem_iff_getElem?.mpr ⟨r, ?_⟩
    rw [getElem?_zipIdx, hr, zero_add, Option.map_some]
  obtain ⟨gev₂, gev₃, hstep⟩ := step_of_foldlM hverify hrank
  obtain ⟨gev₄, gev₅, hstep'⟩ := step_of_foldlM hpopulate hrank
  rw [verify] at hstep
  rw [populate] at hstep'
  cases hrev : events[i]? with
  | none =>
    rw [hrev] at hstep
    cases hstep
  | some rev =>
    rw [hrev] at hstep hstep'
    obtain ⟨m, hsend, -⟩ := except_bind_eq_ok.mp hstep'
    refine ⟨rev, rfl, fun target htarget => ?_, fun src hsrc => ?_⟩
    · obtain ⟨bytes, hbytes⟩ := isSome_iff_exists.mp (mem_iff_isSome_getElem?.mp htarget)
      obtain ⟨m₁, m₂, hentry⟩ := step_of_foldlM hsend (mem_toList_iff_getElem?_eq_some.mpr hbytes)
      by_contra hneg
      rw [populateEntry, if_pos (by omega), write_negative (.inr (by omega))] at hentry
      cases hentry
    · obtain ⟨bytes, hbytes⟩ := isSome_iff_exists.mp (mem_iff_isSome_getElem?.mp hsrc)
      obtain ⟨m₁, m₂, hentry⟩ := step_of_foldlM hstep (mem_toList_iff_getElem?_eq_some.mpr hbytes)
      by_contra hneg
      rw [verifyEntry, if_pos (by omega), read_negative (.inl (by omega))] at hentry
      cases hentry

/-- What the merge returns are the events that its loop returns, one for each of rank 0. -/
theorem merge_eq_ok {gevs : List MoeGlobalEvent} : merge ranks = .ok gevs ↔
    gevs.length = (ranks.headD []).length ∧ ∀ i rev gev, (ranks.headD [])[i]? = some rev →
      gevs[i]? = some gev → mergeEvent ranks (rev, i) = .ok gev := by
  rw [merge, except_mapM_eq_ok]
  constructor
  · intro h
    have hlen := congrArg List.length h
    rw [length_map, length_zipIdx, length_map] at hlen
    refine ⟨hlen.symm, fun i rev gev hrev hgev => ?_⟩
    have hget : ((ranks.headD []).zipIdx.map (mergeEvent ranks))[i]? =
        (gevs.map Except.ok)[i]? := congrArg (·[i]?) h
    rw [getElem?_map, getElem?_zipIdx, getElem?_map, hrev, hgev] at hget
    simpa using hget
  · rintro ⟨hlen, h⟩
    refine ext_getElem? fun i => ?_
    rw [getElem?_map, getElem?_zipIdx, getElem?_map, Nat.zero_add]
    by_cases hi : i < gevs.length
    · have hi' : i < (ranks.headD []).length := hlen ▸ hi
      rw [getElem?_eq_getElem hi, getElem?_eq_getElem hi']
      exact congrArg some (h i _ _ (getElem?_eq_getElem hi') (getElem?_eq_getElem hi))
    · rw [getElem?_eq_none (Nat.le_of_not_lt hi), getElem?_eq_none (hlen ▸ Nat.le_of_not_lt hi)]
      rfl

/-- Where every rank has every event, the flags say whether the entries are as sent. -/
theorem merge_ok (h : ∀ i < (ranks.headD []).length, Indexable ranks i) :
    ∃ gevs, merge ranks = .ok gevs ∧ gevs.length = (ranks.headD []).length ∧
      ∀ (i : Nat) (gev : MoeGlobalEvent), gevs[i]? = some gev →
        (gev.isConsistent = true ↔ ¬Mismatched ranks i) := by
  have hall : ∀ event ∈ (ranks.headD []).zipIdx, ∃ gev, mergeEvent ranks event = .ok gev := by
    rintro ⟨rev, i⟩ hevent
    obtain ⟨hi, -⟩ := mem_zipIdx' hevent
    obtain ⟨gev, hok, -⟩ := mergeEvent_ok rev (h i hi)
    exact ⟨gev, hok⟩
  obtain ⟨gevs, hok⟩ := except_mapM_ok hall
  obtain ⟨hlen, hevents⟩ := merge_eq_ok.mp hok
  refine ⟨gevs, hok, hlen, fun i gev hgev => ?_⟩
  have hi : i < (ranks.headD []).length := hlen ▸ (List.getElem?_eq_some_iff.mp hgev).1
  obtain ⟨gev', hok', hflag⟩ := mergeEvent_ok (ranks.headD [])[i] (h i hi)
  have heq := (hevents i _ gev (getElem?_eq_getElem hi) hgev).symm.trans hok'
  exact Except.ok.inj heq ▸ hflag

/-- The merge makes only valid accesses, has one event for each of rank 0 and lowers the flags of
those that some rank lacks, if and only if no rank lacks any and no key is negative. -/
theorem merge_safe_iff (ranks : List (List MoeRawEvent)) :
    (∃ gevs, merge ranks = .ok gevs ∧ Merged ranks gevs) ↔
      ∀ i < (ranks.headD []).length, Indexable ranks i := by
  constructor
  · rintro ⟨gevs, hok, -⟩ i hi
    obtain ⟨hlength, hevents⟩ := merge_eq_ok.mp hok
    exact indexable_of_mergeEvent (hevents i _ _ (List.getElem?_eq_getElem hi)
      (List.getElem?_eq_getElem (hlength ▸ hi)))
  · intro h
    obtain ⟨gevs, hok, hlength, -⟩ := merge_ok h
    refine ⟨gevs, hok, hlength, fun i gev hgev hlacking => ?_⟩
    obtain ⟨events, hevents, hnone⟩ := hlacking
    obtain ⟨rev, hrev, -⟩ := h i (hlength ▸ (List.getElem?_eq_some_iff.mp hgev).1) events hevents
    rw [hnone] at hrev
    cases hrev

/-- A short trace of rank 1: the merge reads an event that does not exist. -/
theorem merge_reads_outside :
    ¬∃ gevs, merge [[⟨0, 0, "DISPATCH", 0, 0, ∅, ∅⟩], []] = .ok gevs ∧
      Merged [[⟨0, 0, "DISPATCH", 0, 0, ∅, ∅⟩], []] gevs := by
  rintro ⟨gevs, hok, -⟩
  have herror : (merge [[⟨0, 0, "DISPATCH", 0, 0, ∅, ∅⟩], []]).isOk = false := by decide +kernel
  rw [hok] at herror
  cases herror

theorem agreed_iff : Agreed ranks i ↔ ¬Mismatched ranks i ∧ NothingMissing ranks i := by
  constructor
  · intro h
    refine ⟨?_, fun s hs d hd hnone => ?_⟩
    · rintro ⟨s, hs, d, hd, bytes, hbytes, hne⟩
      exact hne (by rw [h s hs d hd, hbytes, getD_some])
    · rw [h s hs d hd, hnone, getD_none]
  · rintro ⟨hmatch, hnothing⟩ s hs d hd
    cases hentry : expected ranks i s d with
    | none => rw [hnothing s hs d hd hentry, getD_none]
    | some bytes =>
      rw [getD_some]
      by_contra hne
      exact hmatch ⟨s, hs, d, hd, bytes, hentry, hne⟩

/-- Of complete traces, the flags say if senders and receivers agree if and only if no key is
negative and, in each event, nothing is sent without an entry of the receiver or some entry is not
as sent anyway. -/
theorem consistent_iff (ranks : List (List MoeRawEvent))
    (hcomplete : ∀ events ∈ ranks, events.length = (ranks.headD []).length) :
    (∃ gevs, merge ranks = .ok gevs ∧ ∀ (i : Nat) (gev : MoeGlobalEvent), gevs[i]? = some gev →
        (gev.isConsistent = true ↔ Agreed ranks i)) ↔
      ∀ i < (ranks.headD []).length, (∀ events ∈ ranks, ∀ rev, events[i]? = some rev →
          (∀ target ∈ rev.sendBytes, 0 ≤ target) ∧ ∀ src ∈ rev.recvBytes, 0 ≤ src) ∧
        (NothingMissing ranks i ∨ Mismatched ranks i) := by
  have hindexable : ∀ i < (ranks.headD []).length, (Indexable ranks i ↔
      ∀ events ∈ ranks, ∀ rev, events[i]? = some rev →
        (∀ target ∈ rev.sendBytes, 0 ≤ target) ∧ ∀ src ∈ rev.recvBytes, 0 ≤ src) := by
    intro i hi
    refine forall₂_congr fun events hevents => ?_
    have hget := List.getElem?_eq_getElem ((hcomplete events hevents).symm ▸ hi)
    rw [hget]
    constructor
    · rintro ⟨rev, hrev, hkeys⟩ rev' hrev'
      exact Option.some.inj (hrev.symm.trans hrev') ▸ hkeys
    · intro h
      exact ⟨_, rfl, h _ rfl⟩
  have hflag : ∀ i, ((¬Mismatched ranks i ↔ Agreed ranks i) ↔
      NothingMissing ranks i ∨ Mismatched ranks i) := fun i => by
    rw [agreed_iff]
    tauto
  constructor
  · rintro ⟨gevs, hok, hgevs⟩ i hi
    have hsafe : ∀ i < (ranks.headD []).length, Indexable ranks i := fun j hj => by
      obtain ⟨hlength, hevents⟩ := merge_eq_ok.mp hok
      exact indexable_of_mergeEvent (hevents j _ _ (List.getElem?_eq_getElem hj)
        (List.getElem?_eq_getElem (hlength ▸ hj)))
    obtain ⟨gevs', hok', hlength, hflags⟩ := merge_ok hsafe
    obtain rfl := Except.ok.inj (hok.symm.trans hok')
    have hget := List.getElem?_eq_getElem (hlength.symm ▸ hi)
    refine ⟨(hindexable i hi).mp (hsafe i hi), (hflag i).mp ?_⟩
    rw [← hflags i _ hget, hgevs i _ hget]
  · intro h
    obtain ⟨gevs, hok, hlength, hflags⟩ := merge_ok fun i hi => (hindexable i hi).mpr (h i hi).1
    refine ⟨gevs, hok, fun i gev hgev => ?_⟩
    have hi : i < (ranks.headD []).length := hlength ▸ (List.getElem?_eq_some_iff.mp hgev).1
    rw [hflags i gev hgev]
    exact (hflag i).mpr (h i hi).2

end

/-! ## 6. Bytes that no receiver expects -/

/-- Rank 0 sends a byte to rank 1. -/
def sending : MoeRawEvent :=
  ⟨0, 0, "DISPATCH", 0, 0, .ofList [((1 : Int), 1)], ∅⟩

/-- Rank 1 has an entry for it, or none. -/
def receiving (recv_bytes : List (Int × Nat)) : MoeRawEvent :=
  ⟨1, 0, "DISPATCH", 0, 0, ∅, .ofList recv_bytes⟩

theorem consistent_iff_pair :
    ∃ gevs, merge [[sending], [receiving [(0, 1)]]] = .ok gevs ∧
      ∀ (i : Nat) (gev : MoeGlobalEvent), gevs[i]? = some gev →
        (gev.isConsistent = true ↔ Agreed [[sending], [receiving [(0, 1)]]] i) := by
  refine (consistent_iff [[sending], [receiving [(0, 1)]]] (by simp)).mpr fun i hi => ?_
  obtain rfl : i = 0 := Nat.lt_one_iff.mp hi
  have hsending : (∀ target ∈ sending.sendBytes.keys, 0 ≤ target) ∧
      ∀ src ∈ sending.recvBytes.keys, 0 ≤ src := by decide +kernel
  have hreceiving : (∀ target ∈ (receiving [(0, 1)]).sendBytes.keys, 0 ≤ target) ∧
      ∀ src ∈ (receiving [(0, 1)]).recvBytes.keys, 0 ≤ src := by decide +kernel
  have hnothing : ∀ s < 2, ∀ d < 2, expected [[sending], [receiving [(0, 1)]]] 0 s d = none →
      sent [[sending], [receiving [(0, 1)]]] 0 s d = 0 := by decide +kernel
  refine ⟨fun events hevents rev hrev => ?_, .inl hnothing⟩
  simp only [Std.TreeMap.mem_keys] at hsending hreceiving
  rcases List.mem_cons.mp hevents with rfl | hevents
  · exact Option.some.inj hrev ▸ hsending
  · obtain rfl := List.mem_singleton.mp hevents
    exact Option.some.inj hrev ▸ hreceiving

/-- The flag stays up although rank 1 does not expect the byte. -/
theorem consistent_without_entry :
    ¬∃ gevs, merge [[sending], [receiving []]] = .ok gevs ∧
      ∀ (i : Nat) (gev : MoeGlobalEvent), gevs[i]? = some gev →
        (gev.isConsistent = true ↔ Agreed [[sending], [receiving []]] i) := by
  rintro ⟨gevs, hok, hgevs⟩
  have hup : (merge [[sending], [receiving []]]).toOption.map (·.map (·.isConsistent)) =
      some [true] := by decide +kernel
  rw [hok] at hup
  obtain ⟨gev, hgev, htrue⟩ := List.map_eq_singleton_iff.mp (Option.some.inj hup)
  have hagreed := (hgevs 0 gev (by rw [hgev]; rfl)).mp htrue 0 (by decide) 1 (by decide)
  revert hagreed
  decide +kernel

end MoeJit.TraceParser
