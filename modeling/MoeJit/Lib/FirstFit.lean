import Mathlib.Data.List.Basic

/-!
# First-fit search with skipping

The search for the first start `s` below `stop` such that every index from `s`
up to `last s` fits. When an index does not fit the search goes on right after
it, and does not try the starts in between.
-/

namespace FirstFit

open List

/-- The indices from `s` up to `e`. -/
def window (s e : Nat) : List Nat := List.range' s (e - s)

theorem mem_window {s e u : Nat} : u ∈ window s e ↔ s ≤ u ∧ u < e := by
  rw [window, mem_range'_1]
  omega

theorem nodup_window (s e : Nat) : (window s e).Nodup := nodup_range'

theorem length_window (s e : Nat) : (window s e).length = e - s := length_range'

/-- The loop, for at most `n` more starts. -/
def searchFrom (fits : Nat → Bool) (last : Nat → Nat) (stop : Nat) : Nat → Nat → Option Nat
  | 0, _ => none
  | n + 1, s =>
    if s < stop then
      match (window s (last s)).find? fun u => !fits u with
      | none => some s
      | some failed => searchFrom fits last stop n (failed + 1)
    else none

/-- The search from `base` on. Every iteration moves the start, so that there
are at most `stop - base` of them. -/
def search (fits : Nat → Bool) (last : Nat → Nat) (stop base : Nat) : Option Nat :=
  searchFrom fits last stop (stop - base) base

variable {fits : Nat → Bool} {last : Nat → Nat} {stop : Nat}

theorem searchFrom_spec {n s t : Nat} (h : searchFrom fits last stop n s = some t) :
    s ≤ t ∧ t < stop ∧ ∀ u ∈ window t (last t), fits u := by
  induction n generalizing s with
  | zero => cases h
  | succ n ih =>
    rw [searchFrom] at h
    split at h
    · next hlt =>
      split at h
      · next hnone =>
        cases h
        exact ⟨Nat.le_refl _, hlt, by simpa using hnone⟩
      · next failed hfailed =>
        obtain ⟨hle, hrest⟩ := ih h
        have := (mem_window.mp (mem_of_find?_eq_some hfailed)).1
        exact ⟨by omega, hrest⟩
    · cases h

theorem searchFrom_eq {n m s : Nat} (hn : stop - s ≤ n) (hm : stop - s ≤ m) :
    searchFrom fits last stop n s = searchFrom fits last stop m s := by
  have hdone : ∀ k, ¬ s < stop → searchFrom fits last stop k s = none := fun k hs => by
    cases k with
    | zero => rfl
    | succ k => rw [searchFrom, if_neg hs]
  induction n generalizing m s with
  | zero => rw [hdone 0 (by omega), hdone m (by omega)]
  | succ n ih =>
    by_cases hs : s < stop
    · obtain ⟨m, rfl⟩ : ∃ m', m = m' + 1 := ⟨m - 1, by omega⟩
      rw [searchFrom, searchFrom, if_pos hs, if_pos hs]
      split
      · rfl
      · next failed hfailed =>
        have := (mem_window.mp (mem_of_find?_eq_some hfailed)).1
        refine ih (by omega) (by omega) fun k hk => ?_
        cases k with
        | zero => rfl
        | succ k => rw [searchFrom, if_neg hk]
    · rw [hdone _ hs, hdone _ hs]

/-- What the search returns: a start in range whose whole window fits. -/
theorem search_spec {base t : Nat} (h : search fits last stop base = some t) :
    base ≤ t ∧ t < stop ∧ ∀ u ∈ window t (last t), fits u :=
  searchFrom_spec h

theorem search_eq (base : Nat) : search fits last stop base = if base < stop then
      match (window base (last base)).find? fun u => !fits u with
      | none => some base
      | some failed => search fits last stop (failed + 1)
    else none := by
  rw [search]
  split
  · next hlt =>
    rw [searchFrom_eq (m := stop - base - 1 + 1) (Nat.le_refl _) (by omega), searchFrom, if_pos hlt]
    split
    · rfl
    · next failed hfailed =>
      have := (mem_window.mp (mem_of_find?_eq_some hfailed)).1
      exact searchFrom_eq (by omega) (Nat.le_refl _)
  · next hge => rw [show stop - base = 0 by omega, searchFrom]

theorem search_first {base : Nat} (hlt : base < stop)
    (hfits : ∀ u ∈ window base (last base), fits u = true) :
    search fits last stop base = some base := by
  have hnone : (window base (last base)).find? (fun u => !fits u) = none :=
    find?_eq_none.mpr fun u hu => by simp [hfits u hu]
  rw [search_eq, if_pos hlt, hnone]

/-! ## Trying every start -/

/-- The first index from `lo` up to `hi` that is in order, each of them tried. -/
def tryAll (ok : Nat → Prop) [DecidablePred ok] (lo hi : Nat) : Option Nat :=
  (window lo hi).find? fun t => decide (ok t)

section

variable {ok : Nat → Prop} [DecidablePred ok] {lo hi : Nat}

theorem tryAll_eq_some_iff {t : Nat} : tryAll ok lo hi = some t ↔
    (lo ≤ t ∧ t < hi) ∧ ok t ∧ ∀ u, lo ≤ u → u < t → ¬ok u := by
  have hmem : t ∈ List.range' lo (hi - lo) ↔ lo ≤ t ∧ t < hi := mem_window
  rw [tryAll, window, find?_range'_eq_some, decide_eq_true_eq, hmem]
  simp only [Bool.not_eq_true', decide_eq_false_iff_not]
  exact and_left_comm

theorem tryAll_eq_none_iff : tryAll ok lo hi = none ↔ ∀ u, lo ≤ u → u < hi → ¬ok u := by
  rw [tryAll, find?_eq_none]
  simp only [mem_window, decide_eq_true_eq, and_imp]

theorem tryAll_skip {m : Nat} (hle : lo ≤ m) (h : ∀ u, lo ≤ u → u < m → u < hi → ¬ok u) :
    tryAll ok lo hi = tryAll ok m hi := by
  refine Option.ext fun t => ?_
  rw [tryAll_eq_some_iff, tryAll_eq_some_iff]
  constructor
  · rintro ⟨⟨hlo, hhi⟩, hok, hfirst⟩
    have hm : m ≤ t := Nat.le_of_not_lt fun hlt => h t hlo hlt hhi hok
    exact ⟨⟨hm, hhi⟩, hok, fun u hu => hfirst u (Nat.le_trans hle hu)⟩
  · rintro ⟨⟨hm, hhi⟩, hok, hfirst⟩
    refine ⟨⟨Nat.le_trans hle hm, hhi⟩, hok, fun u hlo hlt => ?_⟩
    rcases Nat.lt_or_ge u m with hum | hum
    · exact h u hlo hum (Nat.lt_trans hlt hhi)
    · exact hfirst u hum hlt

theorem tryAll_congr {ok' : Nat → Prop} [DecidablePred ok']
    (h : ∀ u, lo ≤ u → u < hi → (ok u ↔ ok' u)) : tryAll ok lo hi = tryAll ok' lo hi := by
  refine Option.ext fun t => ?_
  rw [tryAll_eq_some_iff, tryAll_eq_some_iff]
  refine and_congr_right fun ⟨hlo, hhi⟩ => and_congr (h t hlo hhi) ?_
  exact forall₃_congr fun u hu hlt => not_congr (h u hu (Nat.lt_trans hlt hhi))

end

/-- The whole window of a start fits. -/
def WindowFits (fits : Nat → Bool) (last : Nat → Nat) (s : Nat) : Prop :=
  ∀ u ∈ window s (last s), fits u = true

instance (fits : Nat → Bool) (last : Nat → Nat) : DecidablePred (WindowFits fits last) := fun s =>
  inferInstanceAs (Decidable (∀ u ∈ window s (last s), fits u = true))

/-- A search that skips finds what trying every start finds, where later windows do not end
before earlier ones: the index that failed is in the windows of all starts that are skipped. -/
theorem search_eq_tryAll {base : Nat}
    (hlast : ∀ s s', base ≤ s → s ≤ s' → s' < stop → last s ≤ last s') :
    search fits last stop base = tryAll (WindowFits fits last) base stop := by
  induction hn : stop - base using Nat.strongRecOn generalizing base with
  | ind n ih =>
    rw [search_eq]
    split
    · next hlt =>
      split
      · next hnone =>
        have hfits : ∀ u ∈ window base (last base), fits u = true := by simpa using hnone
        refine (tryAll_eq_some_iff.mpr ⟨⟨Nat.le_refl _, hlt⟩, hfits, fun u hu hub => ?_⟩).symm
        exact absurd hu (Nat.not_le_of_lt hub)
      · next failed hfailed =>
        obtain ⟨hge, hend⟩ := mem_window.mp (mem_of_find?_eq_some hfailed)
        have hno : ¬fits failed = true := by simpa using find?_some hfailed
        rw [ih (stop - (failed + 1)) (by omega) (fun s s' hs => hlast s s' (by omega)) rfl]
        refine (tryAll_skip (by omega) fun u hu hufail hustop hok => hno (hok failed ?_)).symm
        exact mem_window.mpr ⟨Nat.le_of_lt_succ hufail,
            Nat.lt_of_lt_of_le hend (hlast base u (Nat.le_refl _) hu hustop)⟩
    · next hge =>
      exact (tryAll_eq_none_iff.mpr fun u hu hstop =>
        absurd (Nat.lt_of_le_of_lt hu hstop) hge).symm

/-- The starts that a search may come to are its first one and those behind an index that does
not fit. It finds something if and only if one of these has a window that fits. -/
theorem search_isSome_iff {base : Nat} : (search fits last stop base).isSome ↔
    ∃ s, base ≤ s ∧ s < stop ∧ WindowFits fits last s ∧ (s = base ∨ fits (s - 1) = false) := by
  induction hn : stop - base using Nat.strongRecOn generalizing base with
  | ind n ih =>
    rw [search_eq]
    split
    · next hlt =>
      split
      · next hnone =>
        have hfits : WindowFits fits last base := by simpa [WindowFits] using hnone
        exact ⟨fun _ => ⟨base, Nat.le_refl _, hlt, hfits, .inl rfl⟩, fun _ => rfl⟩
      · next failed hfailed =>
        obtain ⟨hno, hmem, hfirst⟩ := find?_range'_eq_some.mp hfailed
        have hge : base ≤ failed := (mem_range'_1.mp hmem).1
        have hno' : fits failed = false := by simpa using hno
        rw [ih (stop - (failed + 1)) (by omega) rfl]
        constructor
        · rintro ⟨s, hs, hstop, hfits, hbehind⟩
          refine ⟨s, by omega, hstop, hfits, .inr ?_⟩
          rcases hbehind with rfl | hbehind
          · exact hno'
          · exact hbehind
        · rintro ⟨s, hs, hstop, hfits, hbehind⟩
          -- the search does not pass `s`: the index before `s` does not fit
          have hlater : failed < s := by
            rcases hbehind with rfl | hbehind
            · exact absurd (hfits failed (by rw [window]; exact hmem)) (by simp [hno'])
            · by_contra hle
              rcases Nat.lt_or_ge s (base + 1) with hfirst' | hmore
              · obtain rfl : s = base := by omega
                exact absurd (hfits failed (by rw [window]; exact hmem)) (by simp [hno'])
              · have hearlier := hfirst (s - 1) (by omega) (by omega)
                simp [hbehind] at hearlier
          refine ⟨s, hlater, hstop, hfits, ?_⟩
          rcases hbehind with rfl | hbehind
          · omega
          · exact .inr hbehind
    · next hge =>
      refine ⟨nofun, fun ⟨s, hs, hstop, _⟩ => absurd (Nat.lt_of_le_of_lt hs hstop) hge⟩

/-- A start in range with an empty window is not missed when nothing fits. -/
theorem search_isSome_of_empty {base s : Nat} (hnone : ∀ u, fits u = false) (hbase : base ≤ s)
    (hstop : s < stop) (hempty : last s ≤ s) : (search fits last stop base).isSome = true := by
  induction hn : s - base generalizing base with
  | zero =>
    obtain rfl : base = s := by omega
    rw [search_first hstop fun u hu => absurd (mem_window.mp hu).1 (by
      have := (mem_window.mp hu).2
      omega)]
    rfl
  | succ n ih =>
    rw [search_eq, if_pos (by omega)]
    split
    · rfl
    · next failed hfailed =>
      -- the first index of the window fails, so the search tries every start
      obtain ⟨-, hmem, hfirst⟩ := find?_range'_eq_some.mp hfailed
      have hle : failed ≤ base := Nat.le_of_not_lt fun hlt => by
        simpa [hnone] using hfirst base (Nat.le_refl _) hlt
      obtain rfl : failed = base := Nat.le_antisymm hle (mem_range'_1.mp hmem).1
      exact ih (by omega) (by omega)

end FirstFit
