import MoeJit.Moe.Centralized

/-!
# The capacity ledger

Every reservation of `CentralizedAdmissionScheduler` stays within the ledger:
in each slot, what is left and what the scheduled tasks were charged add up to
the limit, overall and for each rank.

The check of a window creates entries of `m_rankCap` as it goes. `globalFree`
and `rankFree` read the ledger with the limits where there is no entry, and the
check leaves both unchanged (`checkWindow_spec`), so that only `commit` moves
capacity (`commit_spec`).
-/

namespace MoeJit.Centralized

open Words StdSort List

/-! ## 1. Free capacity -/

/-- Capacity left in slot `s`. -/
def globalFree (cfg : Config) (ledger : Ledger) (s : Nat) : Nat :=
  (ledger[s]?).elim cfg.globalLimit fun slot => slot.globalCap

/-- Capacity left for rank `r` in slot `s`. -/
def rankFree (cfg : Config) (ledger : Ledger) (s : Nat) (r : Rank) : Nat :=
  (ledger[s]?).elim cfg.rankLimit fun slot => (slot.rankCap.lookup r).getD cfg.rankLimit

/-- Slot `s` has an entry for rank `r`. -/
def HasEntry (ledger : Ledger) (s : Nat) (r : Rank) : Prop :=
  ∃ slot, ledger[s]? = some slot ∧ r ∈ slot.rankCap

/-- The footprint of rank `r` in one slot. -/
def footOf (span : Nat) (b_ir : List (Sigma fun _ : Rank => Nat)) (r : Rank) : Nat :=
  (b_ir.dlookup r).getD 0 / span

/-- Slot `s` has room for a task. -/
def Room (cfg : Config) (d_i span : Nat) (b_ir : List (Sigma fun _ : Rank => Nat))
    (ledger : Ledger) (s : Nat) : Prop :=
  d_i / span ≤ globalFree cfg ledger s ∧
  ∀ kv ∈ b_ir, kv.2 / span ≤ rankFree cfg ledger s kv.1

/-- The two ledgers differ in the entries they have, not in what is free. -/
structure SameFree (cfg : Config) (ledger ledger' : Ledger) : Prop where
  length_eq : ledger'.length = ledger.length
  global_eq : ∀ s, globalFree cfg ledger' s = globalFree cfg ledger s
  rank_eq : ∀ s r, rankFree cfg ledger' s r = rankFree cfg ledger s r
  entries : ∀ s r, HasEntry ledger s r → HasEntry ledger' s r

theorem SameFree.refl (cfg : Config) (ledger : Ledger) : SameFree cfg ledger ledger :=
  ⟨rfl, fun _ => rfl, fun _ _ => rfl, fun _ _ h => h⟩

variable {cfg : Config} {ledger ledger' : Ledger} {d_i span s i rankLimit : Nat}
  {b_ir : List (Sigma fun _ : Rank => Nat)} {slot slot' : Slot} {r : Rank}
  {caps : AList fun _ : Rank => Nat}

theorem SameFree.trans {l₁ l₂ l₃ : Ledger} (h : SameFree cfg l₁ l₂) (h' : SameFree cfg l₂ l₃) :
    SameFree cfg l₁ l₃ where
  length_eq := h'.length_eq.trans h.length_eq
  global_eq s := (h'.global_eq s).trans (h.global_eq s)
  rank_eq s r := (h'.rank_eq s r).trans (h.rank_eq s r)
  entries s r he := h'.entries s r (h.entries s r he)

theorem SameFree.room_iff (h : SameFree cfg ledger ledger') :
    Room cfg d_i span b_ir ledger' s ↔ Room cfg d_i span b_ir ledger s := by
  simp only [Room, h.global_eq, h.rank_eq]

theorem globalFree_of_some (cfg : Config) (h : ledger[s]? = some slot) :
    globalFree cfg ledger s = slot.globalCap := by
  simp [globalFree, h]

theorem rankFree_of_some (cfg : Config) (h : ledger[s]? = some slot) (r : Rank) :
    rankFree cfg ledger s r = (slot.rankCap.lookup r).getD cfg.rankLimit := by
  simp [rankFree, h]

theorem globalFree_set (h : ledger[i]? = some slot) (s : Nat) :
    globalFree cfg (ledger.set i slot') s =
      if s = i then slot'.globalCap else globalFree cfg ledger s := by
  obtain ⟨hi, -⟩ := List.getElem?_eq_some_iff.mp h
  by_cases hs : s = i
  · subst hs
    simp [globalFree, hi]
  · simp [globalFree, getElem?_set_ne (Ne.symm hs), hs]

theorem rankFree_set (h : ledger[i]? = some slot) (s : Nat) (r : Rank) :
    rankFree cfg (ledger.set i slot') s r =
      if s = i then (slot'.rankCap.lookup r).getD cfg.rankLimit
      else rankFree cfg ledger s r := by
  obtain ⟨hi, -⟩ := List.getElem?_eq_some_iff.mp h
  by_cases hs : s = i
  · subst hs
    simp [rankFree, hi]
  · simp [rankFree, getElem?_set_ne (Ne.symm hs), hs]

theorem hasEntry_set (h : ledger[i]? = some slot) (s : Nat) (r : Rank) :
    HasEntry (ledger.set i slot') s r ↔
      if s = i then r ∈ slot'.rankCap else HasEntry ledger s r := by
  obtain ⟨hi, -⟩ := List.getElem?_eq_some_iff.mp h
  by_cases hs : s = i
  · subst hs
    simp [HasEntry, hi]
  · simp [HasEntry, getElem?_set_ne (Ne.symm hs), hs]

theorem grow_free (cfg : Config) (n : Nat) (ledger : Ledger) :
    (∀ s, globalFree cfg (grow cfg n ledger) s = globalFree cfg ledger s) ∧
    (∀ s r, rankFree cfg (grow cfg n ledger) s r = rankFree cfg ledger s r) := by
  have hget : ∀ s : Nat, ledger[s]? = none → ∀ slot, (grow cfg n ledger)[s]? = some slot →
      slot = ({ globalCap := cfg.globalLimit } : Slot) := by
    intro s hs slot hslot
    rw [grow, getElem?_append_right (List.getElem?_eq_none_iff.mp hs)] at hslot
    exact eq_of_mem_replicate (mem_of_getElem? hslot)
  have hkeep : ∀ (s : Nat) slot, ledger[s]? = some slot → (grow cfg n ledger)[s]? = some slot := by
    intro s slot hs
    rw [grow, getElem?_append_left (List.getElem?_eq_some_iff.mp hs).1]
    exact hs
  constructor
  · intro s
    cases hs : ledger[s]? with
    | some slot => rw [globalFree_of_some cfg (hkeep s slot hs), globalFree_of_some cfg hs]
    | none =>
      cases hg : (grow cfg n ledger)[s]? with
      | none => simp [globalFree, hs, hg]
      | some slot => simp [globalFree, hs, hg, hget s hs slot hg]
  · intro s r
    cases hs : ledger[s]? with
    | some slot => rw [rankFree_of_some cfg (hkeep s slot hs), rankFree_of_some cfg hs]
    | none =>
      cases hg : (grow cfg n ledger)[s]? with
      | none => simp [rankFree, hs, hg]
      | some slot => simp [rankFree, hs, hg, hget s hs slot hg]

theorem length_grow_ge (cfg : Config) (n : Nat) (ledger : Ledger) :
    ledger.length ≤ (grow cfg n ledger).length ∧ n ≤ (grow cfg n ledger).length := by
  simp only [grow, length_append, length_replicate]
  omega

/-! ## 2. The check of a window -/

theorem ensureRank_lookup (r' : Rank) : ((ensureRank rankLimit r caps).lookup r').getD rankLimit =
      (caps.lookup r').getD rankLimit := by
  unfold ensureRank
  split
  · rfl
  · next hr =>
    by_cases h : r' = r
    · subst h
      simp [AList.lookup_eq_none.mpr hr]
    · rw [AList.lookup_insert_ne h]

theorem mem_ensureRank {r' : Rank} : r' ∈ ensureRank rankLimit r caps ↔ r' = r ∨ r' ∈ caps := by
  unfold ensureRank
  split
  · next hr =>
    constructor
    · exact Or.inr
    · rintro (rfl | h)
      · exact hr
      · exact h
  · exact AList.mem_insert caps

/-- With an entry, the capacity read by `[]` is the free capacity. -/
theorem getD_lookup_of_mem (h : r ∈ caps) (a b : Nat) :
    (caps.lookup r).getD a = (caps.lookup r).getD b := by
  obtain ⟨v, hv⟩ := Option.isSome_iff_exists.mp (AList.lookup_isSome.mpr h)
  simp [hv]

/-- The rank loop of the check only adds entries, and passes exactly when every
rank has room. -/
theorem checkRanks_spec {caps' : AList fun _ : Rank => Nat} {ok : Bool}
    (h : checkRanks rankLimit span b_ir caps = (ok, caps')) :
    (∀ r, (caps'.lookup r).getD rankLimit = (caps.lookup r).getD rankLimit) ∧
    (∀ r, r ∈ caps → r ∈ caps') ∧
    (ok = true → ∀ kv ∈ b_ir, kv.1 ∈ caps') ∧
    (ok = true ↔ ∀ kv ∈ b_ir, kv.2 / span ≤ (caps.lookup kv.1).getD rankLimit) := by
  induction b_ir generalizing caps with
  | nil =>
    obtain ⟨rfl, rfl⟩ := Prod.mk.inj h
    simp
  | cons kv rest ih =>
    have hmem : kv.1 ∈ ensureRank rankLimit kv.1 caps := mem_ensureRank.mpr (Or.inl rfl)
    rw [checkRanks] at h
    rw [getD_lookup_of_mem hmem 0 rankLimit, ensureRank_lookup] at h
    split at h
    · next hlt =>
      obtain ⟨rfl, rfl⟩ := Prod.mk.inj h
      refine ⟨ensureRank_lookup, fun r hr => mem_ensureRank.mpr (Or.inr hr), ?_, ?_⟩
      · intro hf
        exact Bool.noConfusion hf
      · simp only [Bool.false_eq_true, false_iff]
        intro hall
        exact absurd (hall kv mem_cons_self) (not_le.mpr hlt)
    · next hge =>
      obtain ⟨hfree, hkeep, hentries, hok⟩ := ih h
      refine ⟨fun r => (hfree r).trans (ensureRank_lookup r),
        fun r hr => hkeep r (mem_ensureRank.mpr (Or.inr hr)), ?_, ?_⟩
      · intro htrue kv' hkv'
        rcases mem_cons.mp hkv' with rfl | hrest
        · exact hkeep _ hmem
        · exact hentries htrue kv' hrest
      · rw [hok, forall_mem_cons]
        simp only [ensureRank_lookup]
        exact ⟨fun hall => ⟨not_lt.mp hge, hall⟩, fun hall => hall.2⟩

/-- The check of a window changes no free capacity. It passes when every slot
has room, and then every charged entry exists. Otherwise it names a slot
without room. -/
theorem checkWindow_spec {n fut : Nat} {fail : Option Nat}
    (h : checkWindow cfg d_i span b_ir n fut ledger = some (fail, ledger')) :
    SameFree cfg ledger ledger' ∧
    (fail = none → ∀ s, fut ≤ s → s < fut + n →
      s < ledger.length ∧ Room cfg d_i span b_ir ledger s ∧
      ∀ kv ∈ b_ir, HasEntry ledger' s kv.1) ∧
    (∀ off, fail = some off → off < n ∧ ¬ Room cfg d_i span b_ir ledger (fut + off)) := by
  induction n generalizing fut ledger fail with
  | zero =>
    simp only [checkWindow, Option.some.injEq, Prod.mk.injEq] at h
    obtain ⟨rfl, rfl⟩ := h
    exact ⟨SameFree.refl _ _, fun _ s h1 h2 => by omega, fun off hoff => nomatch hoff⟩
  | succ n ih =>
    rw [checkWindow] at h
    split at h
    · exact absurd h (by simp)
    next slot hslot =>
    have hglobal := globalFree_of_some cfg hslot
    have hrank := rankFree_of_some cfg hslot
    have hbound := (List.getElem?_eq_some_iff.mp hslot).1
    split at h
    · next hlt =>
      obtain ⟨rfl, rfl⟩ := Prod.mk.inj (Option.some.inj h)
      refine ⟨SameFree.refl _ _, (fun hf => nomatch hf), ?_⟩
      rintro off ⟨rfl⟩
      exact ⟨Nat.succ_pos n, fun hroom => absurd hroom.1 (by rw [add_zero, hglobal]; omega)⟩
    next hge =>
    cases hcheck : checkRanks cfg.rankLimit span b_ir slot.rankCap with
    | mk ok caps =>
    obtain ⟨hfree, hkeep, hentries, hok⟩ := checkRanks_spec hcheck
    -- creating entries in this slot changes no free capacity
    have hset : SameFree cfg ledger (ledger.set fut { slot with rankCap := caps }) := by
      refine ⟨length_set, fun s => ?_, fun s r => ?_, fun s r he => ?_⟩
      · rw [globalFree_set hslot]
        split
        · next hs => rw [hs, hglobal]
        · rfl
      · rw [rankFree_set hslot]
        split
        · next hs => rw [hs, hrank, hfree]
        · rfl
      · rw [hasEntry_set hslot]
        split
        · next hs =>
          subst hs
          obtain ⟨slot', hslot', hr⟩ := he
          rw [hslot] at hslot'
          obtain rfl := Option.some.inj hslot'
          exact hkeep r hr
        · exact he
    have hroom : ok = true ↔ Room cfg d_i span b_ir ledger fut := by
      rw [hok, Room, hglobal]
      simp only [hrank]
      exact ⟨fun hall => ⟨not_lt.mp hge, hall⟩, fun hall => hall.2⟩
    simp only [hcheck] at h
    split at h
    · next htrue =>
      cases hrest : checkWindow cfg d_i span b_ir n (fut + 1)
          (ledger.set fut { slot with rankCap := caps }) with
      | none => simp [hrest] at h
      | some p =>
        obtain ⟨fail', ledger''⟩ := p
        simp only [hrest, Option.map_some, Option.some.injEq, Prod.mk.injEq] at h
        obtain ⟨rfl, rfl⟩ := h
        obtain ⟨hsame, hpass, hfail⟩ := ih hrest
        refine ⟨hset.trans hsame, ?_, ?_⟩
        · intro hnone s h1 h2
          rcases Nat.eq_or_lt_of_le h1 with rfl | hlt
          · refine ⟨hbound, hroom.mp htrue, fun kv hkv => hsame.entries _ _ ?_⟩
            rw [hasEntry_set hslot, if_pos rfl]
            exact hentries htrue kv hkv
          · obtain ⟨hb, hr, he⟩ := hpass (Option.map_eq_none_iff.mp hnone) s hlt (by omega)
            exact ⟨by simpa using hb, hset.room_iff.mp hr, he⟩
        · intro off hoff
          obtain ⟨off', hoff', rfl⟩ := Option.map_eq_some_iff.mp hoff
          obtain ⟨hn, hno⟩ := hfail off' hoff'
          refine ⟨by omega, fun hr => hno (hset.room_iff.mpr ?_)⟩
          rwa [add_assoc, add_comm 1 off']
    · next hfalse =>
      obtain ⟨rfl, rfl⟩ := Prod.mk.inj (Option.some.inj h)
      refine ⟨hset, (fun hf => nomatch hf), ?_⟩
      rintro off ⟨rfl⟩
      exact ⟨Nat.succ_pos n, fun hr => hfalse (hroom.mpr hr)⟩

theorem checkWindow_isSome {n fut : Nat} (h : fut + n ≤ ledger.length) :
    (checkWindow cfg d_i span b_ir n fut ledger).isSome := by
  induction n generalizing fut ledger with
  | zero => rfl
  | succ n ih =>
    rw [checkWindow]
    cases hslot : ledger[fut]? with
    | none =>
      have := List.getElem?_eq_none_iff.mp hslot
      omega
    | some slot =>
      simp only
      split
      · rfl
      · split
        · rw [Option.isSome_map]
          exact ih (by rw [length_set]; omega)
        · rfl

/-! ## 3. The search -/

/-- The window `t .. t + span - 1` has room. -/
def WindowRoom (cfg : Config) (d_i span : Nat) (b_ir : List (Sigma fun _ : Rank => Nat))
    (ledger : Ledger) (t : Nat) : Prop :=
  ∀ s, t ≤ s → s < t + span → s < ledger.length ∧ Room cfg d_i span b_ir ledger s

theorem SameFree.windowRoom_iff (h : SameFree cfg ledger ledger') {t : Nat} :
    WindowRoom cfg d_i span b_ir ledger' t ↔ WindowRoom cfg d_i span b_ir ledger t := by
  simp only [WindowRoom, h.length_eq, h.room_iff]

/-- A start slot that the search selects has a window with room, and none
before it has. -/
theorem searchSlot_spec {stop t : Nat} {found : Option Nat}
    (h : searchSlot cfg d_i span b_ir stop t ledger = some (found, ledger')) :
    SameFree cfg ledger ledger' ∧
    ∀ start, found = some start →
      t ≤ start ∧ start < stop ∧ WindowRoom cfg d_i span b_ir ledger start ∧
      (∀ s, start ≤ s → s < start + span → ∀ kv ∈ b_ir, HasEntry ledger' s kv.1) ∧
      ∀ u, t ≤ u → u < start → ¬ WindowRoom cfg d_i span b_ir ledger u := by
  fun_induction searchSlot cfg d_i span b_ir stop t ledger with
  | case1 t ledger hlt hend | case5 t ledger hge =>
    obtain ⟨rfl, rfl⟩ := Prod.mk.inj (Option.some.inj h)
    exact ⟨SameFree.refl _ _, fun start hs => nomatch hs⟩
  | case2 => exact absurd h (by simp)
  | case3 t ledger hlt hend ledger₁ hcheck =>
    obtain ⟨rfl, rfl⟩ := Prod.mk.inj (Option.some.inj h)
    obtain ⟨hsame, hpass, -⟩ := checkWindow_spec hcheck
    refine ⟨hsame, ?_⟩
    rintro start ⟨rfl⟩
    refine ⟨le_refl _, hlt, fun s h1 h2 => ?_, fun s h1 h2 => ?_, fun u h1 h2 => by omega⟩
    · obtain ⟨hb, hr, -⟩ := hpass rfl s h1 h2
      exact ⟨hb, hr⟩
    · exact (hpass rfl s h1 h2).2.2
  | case4 t ledger hlt hend off ledger₁ hcheck ih =>
    obtain ⟨hsame, -, hfail⟩ := checkWindow_spec hcheck
    obtain ⟨hoff, hno⟩ := hfail off rfl
    obtain ⟨hsame', hfound⟩ := ih h
    refine ⟨hsame.trans hsame', fun start hs => ?_⟩
    obtain ⟨h1, h2, hroom, hentries, hfirst⟩ := hfound start hs
    refine ⟨by omega, h2, hsame.windowRoom_iff.mp hroom, hentries, fun u h3 h4 hu => ?_⟩
    -- a start slot up to the failing slot has that slot in its window
    by_cases hle : u ≤ t + off
    · exact hno (hu (t + off) hle (by omega)).2
    · exact hfirst u (by omega) h4 (hsame.windowRoom_iff.mpr hu)

/-- While the slot arithmetic fits its words, the search reads only slots of
the ledger. -/
theorem searchSlot_isSome {stop t : Nat} (h : stop + span < 2 ^ 32) :
    (searchSlot cfg d_i span b_ir stop t ledger).isSome := by
  fun_induction searchSlot cfg d_i span b_ir stop t ledger with
  | case1 => rfl
  | case2 t ledger hlt hend hcheck =>
    rw [u32_of_lt (by omega)] at hend
    have hsome : (checkWindow cfg d_i span b_ir span t ledger).isSome :=
      checkWindow_isSome (by omega)
    simp [hcheck] at hsome
  | case3 => rfl
  | case4 t ledger hlt hend off ledger₁ hcheck ih => exact ih
  | case5 => rfl

/-! ## 4. The commit -/

theorem footOf_cons (span : Nat) (kv : Sigma fun _ : Rank => Nat)
    (rest : List (Sigma fun _ : Rank => Nat)) (r : Rank) :
    footOf span (kv :: rest) r = if r = kv.1 then kv.2 / span else footOf span rest r := by
  obtain ⟨k, v⟩ := kv
  unfold footOf
  by_cases h : r = k
  · subst h
    rw [dlookup_cons_eq, if_pos rfl]
    rfl
  · rw [dlookup_cons_ne rest (⟨k, v⟩ : Sigma fun _ : Rank => Nat) h, if_neg h]

theorem footOf_of_notMem (h : r ∉ b_ir.keys) : footOf span b_ir r = 0 := by
  rw [footOf, dlookup_eq_none.mpr h]
  exact Nat.zero_div span

/-- Charging the ranks of one slot that has room takes each rank's footprint,
without a wrap. -/
theorem deductRanks_spec (rankLimit : Nat) {caps' : AList fun _ : Rank => Nat}
    {subs : List (Nat × Nat)} (h : deductRanks span b_ir caps = (caps', subs))
    (hnodup : b_ir.keys.Nodup) (hentry : ∀ kv ∈ b_ir, kv.1 ∈ caps)
    (hroom : ∀ kv ∈ b_ir, kv.2 / span ≤ (caps.lookup kv.1).getD rankLimit)
    (hlt : ∀ r, (caps.lookup r).getD rankLimit < 2 ^ 64) :
    (∀ r, (caps'.lookup r).getD rankLimit + footOf span b_ir r = (caps.lookup r).getD rankLimit) ∧
    ∀ p ∈ subs, p.2 ≤ p.1 := by
  induction b_ir generalizing caps subs with
  | nil =>
    obtain ⟨rfl, rfl⟩ := Prod.mk.inj h
    simp [footOf]
  | cons kv rest ih =>
    rw [deductRanks] at h
    rw [keys_cons, nodup_cons] at hnodup
    obtain ⟨hkv, hrest⟩ := forall_mem_cons.mp hroom
    have hin : kv.1 ∈ caps := hentry kv mem_cons_self
    rw [getD_lookup_of_mem hin 0 rankLimit, sub64_of_le hkv (hlt kv.1)] at h
    generalize hcaps₁ : caps.insert kv.1 ((caps.lookup kv.1).getD rankLimit - kv.2 / span) = caps₁
      at h
    have hself : (caps₁.lookup kv.1).getD rankLimit =
        (caps.lookup kv.1).getD rankLimit - kv.2 / span := by
      rw [← hcaps₁, AList.lookup_insert]
      rfl
    have hother : ∀ r, r ≠ kv.1 →
        (caps₁.lookup r).getD rankLimit = (caps.lookup r).getD rankLimit := by
      intro r hr
      rw [← hcaps₁, AList.lookup_insert_ne hr]
    have hne : ∀ kv' ∈ rest, kv'.1 ≠ kv.1 := by
      intro kv' hkv' heq
      exact hnodup.1 (heq ▸ mem_keys_of_mem hkv')
    cases hd : deductRanks span rest caps₁ with
    | mk caps₂ subs₂ =>
    simp only [hd, Prod.mk.injEq] at h
    obtain ⟨rfl, rfl⟩ := h
    obtain ⟨hfree, hsubs⟩ := ih hd hnodup.2
      (fun kv' hkv' => by
        rw [← hcaps₁, AList.mem_insert]
        exact Or.inr (hentry kv' (mem_cons_of_mem _ hkv')))
      (fun kv' hkv' => by rw [hother _ (hne kv' hkv')]; exact hrest kv' hkv')
      (fun r => by
        by_cases hr : r = kv.1
        · subst hr
          rw [hself]
          exact lt_of_le_of_lt (Nat.sub_le _ _) (hlt kv.1)
        · rw [hother r hr]
          exact hlt r)
    refine ⟨fun r => ?_, ?_⟩
    · rw [footOf_cons]
      have hr := hfree r
      split
      · next heq =>
        subst heq
        rw [footOf_of_notMem hnodup.1, hself] at hr
        omega
      · next hneq => rw [hr, hother r hneq]
    · intro p hp
      rcases mem_cons.mp hp with rfl | hp
      · exact hkv
      · exact hsubs p hp

/-- Every slot of the ledger holds at most the limits. -/
def Bounded (cfg : Config) (ledger : Ledger) : Prop :=
  (∀ s, globalFree cfg ledger s ≤ cfg.globalLimit) ∧
  ∀ s r, rankFree cfg ledger s r ≤ cfg.rankLimit

/-- Committing a window that has room takes the footprints from each of its
slots, without a wrap, and nothing from the other slots. -/
theorem commit_spec {n fut : Nat} {subs : List (Nat × Nat)}
    (h : commit d_i span b_ir n fut ledger = (ledger', subs)) (hnodup : b_ir.keys.Nodup)
    (hbound : Bounded cfg ledger)
    (hroom : ∀ s, fut ≤ s → s < fut + n → s < ledger.length ∧ Room cfg d_i span b_ir ledger s)
    (hentry : ∀ s, fut ≤ s → s < fut + n → ∀ kv ∈ b_ir, HasEntry ledger s kv.1) :
    ledger'.length = ledger.length ∧
    (∀ s, globalFree cfg ledger' s + (if fut ≤ s ∧ s < fut + n then d_i / span else 0) =
      globalFree cfg ledger s) ∧
    (∀ s r, rankFree cfg ledger' s r +
      (if fut ≤ s ∧ s < fut + n then footOf span b_ir r else 0) = rankFree cfg ledger s r) ∧
    ∀ p ∈ subs, p.2 ≤ p.1 := by
  induction n generalizing fut ledger subs with
  | zero =>
    obtain ⟨rfl, rfl⟩ := Prod.mk.inj h
    refine ⟨rfl, fun s => ?_, fun s r => ?_, by simp⟩ <;> rw [if_neg (by omega), add_zero]
  | succ n ih =>
    obtain ⟨hin, hroom₀⟩ := hroom fut (le_refl _) (by omega)
    obtain ⟨slot, hslot⟩ : ∃ slot, ledger[fut]? = some slot := ⟨_, getElem?_eq_getElem hin⟩
    rw [commit, hslot] at h
    have hglobal := globalFree_of_some cfg hslot
    have hrank := rankFree_of_some cfg hslot
    have hslotCap : slot.globalCap < 2 ^ 64 := by
      rw [← hglobal]
      exact lt_of_le_of_lt (hbound.1 fut) cfg.globalLimit_lt
    have hslotRoom : d_i / span ≤ slot.globalCap := hglobal ▸ hroom₀.1
    cases hd : deductRanks span b_ir slot.rankCap with
    | mk caps subs₀ =>
    obtain ⟨hfree, hsubs₀⟩ := deductRanks_spec cfg.rankLimit hd hnodup
      (fun kv hkv => by
        obtain ⟨slot', hslot', hmem⟩ := hentry fut (le_refl _) (by omega) kv hkv
        rw [hslot] at hslot'
        exact Option.some.inj hslot' ▸ hmem)
      (fun kv hkv => hrank kv.1 ▸ hroom₀.2 kv hkv)
      (fun r => hrank r ▸ lt_of_le_of_lt (hbound.2 fut r) cfg.rankLimit_lt)
    simp only [hd, sub64_of_le hslotRoom hslotCap] at h
    generalize hled₁ : ledger.set fut ⟨slot.globalCap - d_i / span, caps⟩ = ledger₁ at h
    have hg₁ : ∀ s, globalFree cfg ledger₁ s =
        if s = fut then slot.globalCap - d_i / span else globalFree cfg ledger s := by
      intro s
      rw [← hled₁, globalFree_set hslot]
    have hr₁ : ∀ s r, rankFree cfg ledger₁ s r =
        if s = fut then (caps.lookup r).getD cfg.rankLimit else rankFree cfg ledger s r := by
      intro s r
      rw [← hled₁, rankFree_set hslot]
    have hlen₁ : ledger₁.length = ledger.length := by rw [← hled₁, length_set]
    cases hc : commit d_i span b_ir n (fut + 1) ledger₁ with
    | mk ledger₂ subs₂ =>
    simp only [hc, Prod.mk.injEq] at h
    obtain ⟨rfl, rfl⟩ := h
    -- the later slots of the window are as they were
    obtain ⟨hlen, hglob, hrk, hsubs⟩ := ih hc
      ⟨fun s => by
        rw [hg₁]
        split
        · exact le_trans (Nat.sub_le _ _) (hglobal ▸ hbound.1 fut)
        · exact hbound.1 s,
       fun s r => by
        rw [hr₁]
        split
        · have := hfree r
          have := hrank r ▸ hbound.2 fut r
          omega
        · exact hbound.2 s r⟩
      (fun s h1 h2 => by
        obtain ⟨hs, hrs⟩ := hroom s (by omega) (by omega)
        refine ⟨hlen₁ ▸ hs, ?_⟩
        simp only [Room, hg₁, hr₁, if_neg (show s ≠ fut by omega)]
        exact hrs)
      (fun s h1 h2 kv hkv => by
        rw [← hled₁, hasEntry_set hslot, if_neg (by omega)]
        exact hentry s (by omega) (by omega) kv hkv)
    refine ⟨hlen.trans hlen₁, fun s => ?_, fun s r => ?_, ?_⟩
    · have hs := hglob s
      rw [hg₁] at hs
      by_cases hsf : s = fut
      · subst hsf
        rw [if_pos rfl, if_neg (by omega)] at hs
        rw [if_pos (by omega), hglobal]
        omega
      · rw [if_neg hsf] at hs
        rw [← hs]
        congr 1
        exact if_congr (by omega) rfl rfl
    · have hs := hrk s r
      rw [hr₁] at hs
      by_cases hsf : s = fut
      · subst hsf
        rw [if_pos rfl, if_neg (by omega)] at hs
        rw [if_pos (by omega), hrank, ← hfree r]
        omega
      · rw [if_neg hsf] at hs
        rw [← hs]
        congr 1
        exact if_congr (by omega) rfl rfl
    · intro p hp
      rw [cons_append, mem_cons, mem_append] at hp
      rcases hp with rfl | hp | hp
      · exact hslotRoom
      · exact hsubs₀ p hp
      · exact hsubs p hp

end MoeJit.Centralized
