import Mathlib.Data.List.Perm.Basic
import Mathlib.Data.List.Sort

/-!
# `std::sort`

`std::sort` is not stable: for a comparator that is a strict weak order it
leaves some permutation of its input in which no element is followed by one
that is less. `IsSortOf` is that contract, and a program that sorts is modelled
for every result it allows.
-/

namespace StdSort

open List

variable {α : Type*}

/-- `l'` is a result that `std::sort` with the comparator `lt` may leave for the
input `l`. -/
def IsSortOf (lt : α → α → Prop) (l l' : List α) : Prop :=
  l'.Perm l ∧ l'.Pairwise fun a b => ¬ lt b a

theorem IsSortOf.mem_iff {lt : α → α → Prop} {l l' : List α} (h : IsSortOf lt l l') {a : α} :
    a ∈ l' ↔ a ∈ l :=
  h.1.mem_iff

theorem IsSortOf.nodup {lt : α → α → Prop} {l l' : List α} (h : IsSortOf lt l l')
    (hl : l.Nodup) : l'.Nodup :=
  h.1.nodup_iff.mpr hl

/-- A comparator that is strict wherever a key with distinct values is sorts by
the key. -/
theorem IsSortOf.pairwise_key {lt : α → α → Prop} {l l' : List α} (h : IsSortOf lt l l')
    {key : α → Nat} (hkey : (l.map key).Nodup)
    (hlt : ∀ a ∈ l, ∀ b ∈ l, key a < key b → lt a b) :
    l'.Pairwise fun a b => key a < key b := by
  have hne : l'.Pairwise fun a b => key a ≠ key b :=
    pairwise_map.mp ((h.1.map key).nodup_iff.mpr hkey)
  refine (h.2.and hne).imp_of_mem fun {a b} ha hb hab => ?_
  rcases Nat.lt_or_gt_of_ne hab.2 with hlt' | hgt
  · exact hlt'
  · exact absurd (hlt b (h.mem_iff.mp hb) a (h.mem_iff.mp ha) hgt) hab.1

/-- In a list sorted by a key, elements stand in the order of their keys. -/
theorem pair_sublist_of_pairwise {l : List α} {key : α → Nat}
    (h : l.Pairwise fun a b => key a < key b) {a b : α} (ha : a ∈ l) (hb : b ∈ l)
    (hab : key a < key b) : [a, b].Sublist l := by
  induction l with
  | nil => exact absurd ha not_mem_nil
  | cons x l ih =>
    obtain ⟨hx, hl⟩ := pairwise_cons.mp h
    rcases mem_cons.mp ha with rfl | ha'
    · rcases mem_cons.mp hb with rfl | hb'
      · exact absurd hab (lt_irrefl _)
      · exact (singleton_sublist.mpr hb').cons_cons a
    · rcases mem_cons.mp hb with rfl | hb'
      · exact absurd (lt_trans hab (hx a ha')) (lt_irrefl _)
      · exact (ih hl ha' hb').cons x

/-- What an implementation of `std::sort` with the comparator `lt` makes of each
input. -/
structure Sorter (lt : α → α → Prop) where
  run : List α → List α
  isSortOf : ∀ l, IsSortOf lt l (run l)

/-- Insertion sort is one of them. -/
def Sorter.insertion (lt : α → α → Prop) [DecidableRel lt] [Std.Total fun a b => ¬ lt b a]
    [IsTrans α fun a b => ¬ lt b a] : Sorter lt where
  run := List.insertionSort fun a b => ¬ lt b a
  isSortOf l := ⟨List.perm_insertionSort _ l, List.pairwise_insertionSort _ l⟩

/-- An input of at most one element has itself as its only result. -/
theorem isSortOf_singleton (lt : α → α → Prop) (a : α) : IsSortOf lt [a] [a] :=
  ⟨List.Perm.refl _, pairwise_singleton _ _⟩

/-! ## Two comparators -/

section

variable {β γ κ : Type*} {lt : α → α → Prop} {lt' : β → β → Prop} {l : List γ} {f : γ → α}
  {f' : γ → β}

theorem exists_perm_of_map {o : List α} (h : o.Perm (l.map f)) :
    ∃ o' : List γ, o'.Perm l ∧ o'.map f = o := by
  have himage : List.Forall₂ (fun a c => a = f c) (l.map f) l :=
    forall₂_map_left_iff.mpr (forall₂_same.mpr fun _ _ => rfl)
  obtain ⟨o', hall, hperm⟩ := perm_comp_forall₂ h himage
  refine ⟨o', hperm, ?_⟩
  clear h himage hperm
  induction hall with
  | nil => rfl
  | cons heq _ ih => rw [map_cons, ih, heq]

/-- Rearrangements with the same keys, where each element has a key of its own. -/
theorem eq_of_map_eq {key : γ → κ} (hnodup : (l.map key).Nodup) {o o' : List γ}
    (ho : ∀ c ∈ o, c ∈ l) (ho' : ∀ c ∈ o', c ∈ l) (h : o.map key = o'.map key) : o = o' := by
  induction o generalizing o' with
  | nil => exact (map_eq_nil_iff.mp h.symm).symm
  | cons a o ih =>
    cases o' with
    | nil => cases h
    | cons b o' =>
      obtain ⟨ha, ho⟩ := forall_mem_cons.mp ho
      obtain ⟨hb, ho'⟩ := forall_mem_cons.mp ho'
      obtain ⟨hhead, htail⟩ := cons_eq_cons.mp h
      rw [inj_on_of_nodup_map hnodup ha hb hhead, ih ho ho' htail]

/-- Of two elements the one that need not be the later comes first in some result. -/
theorem exists_isSortOf_pair [Std.Total fun a b => ¬ lt b a] [IsTrans α fun a b => ¬ lt b a]
    {a b : γ} (ha : a ∈ l) (hb : b ∈ l) (hab : a ≠ b) (h : ¬ lt (f a) (f b)) :
    ∃ o : List γ, o.Perm l ∧ IsSortOf lt (l.map f) (o.map f) ∧ [b, a].Sublist o := by
  classical
  have : Std.Total fun x y => ¬ lt (f y) (f x) := 
    ⟨fun x y => Std.Total.total (r := fun a b => ¬ lt b a) (f x) (f y)⟩
  have : IsTrans γ fun x y => ¬ lt (f y) (f x) :=
    ⟨fun x y z hxy hyz => IsTrans.trans (r := fun a b => ¬ lt b a) _ _ _ hxy hyz⟩
  have hfirst : l.Perm (b :: a :: (l.erase b).erase a) := (perm_cons_erase hb).trans
      ((perm_cons_erase ((mem_erase_of_ne hab).mpr ha)).cons b)
  -- insertion sort is stable, so it leaves `b` before `a`
  have hstable := pair_sublist_insertionSort (r := fun x y => ¬ lt (f y) (f x)) h
    (((nil_sublist ((l.erase b).erase a)).cons_cons a).cons_cons b)
  have hperm := (perm_insertionSort (fun x y => ¬ lt (f y) (f x)) _).trans hfirst.symm
  exact ⟨_, hperm, ⟨hperm.map f, pairwise_map.mpr (pairwise_insertionSort _ _)⟩, hstable⟩

/-- A result for one comparator is one for another that compares all elements alike. -/
theorem exists_isSortOf_of_agree (h : ∀ a ∈ l, ∀ b ∈ l, lt' (f' a) (f' b) → lt (f a) (f b))
    {o : List α} (ho : IsSortOf lt (l.map f) o) :
    ∃ o' : List γ, o'.Perm l ∧ o'.map f = o ∧ IsSortOf lt' (l.map f') (o'.map f') := by
  obtain ⟨o', hperm, rfl⟩ := exists_perm_of_map ho.1
  refine ⟨o', hperm, rfl, hperm.map f', pairwise_map.mpr ?_⟩
  exact (pairwise_map.mp ho.2).imp_of_mem fun ha hb hab hlt =>
    hab (h _ (hperm.mem_iff.mp hb) _ (hperm.mem_iff.mp ha) hlt)

/-- The elements by a key of their own, in the orders that a comparator allows. -/
def Orders (lt : α → α → Prop) (key : α → κ) (l : List α) : Set (List κ) :=
  {ks | ∃ o, IsSortOf lt l o ∧ o.map key = ks}

/-- Two sorts allow the same orders only if they compare all elements alike. -/
theorem orders_subset_iff [Std.Total fun a b => ¬ lt b a] [IsTrans α fun a b => ¬ lt b a]
    [Std.Total fun a b => ¬ lt' b a] {key : α → κ} {key' : β → κ}
    (hkey : ∀ c ∈ l, key (f c) = key' (f' c)) (hnodup : (l.map fun c => key' (f' c)).Nodup) :
    Orders lt key (l.map f) ⊆ Orders lt' key' (l.map f') ↔
      ∀ a ∈ l, ∀ b ∈ l, lt' (f' a) (f' b) → lt (f a) (f b) := by
  have hkeys : ∀ {o : List γ}, o.Perm l → (o.map f).map key = (o.map f').map key' := fun hperm => by
    rw [map_map, map_map]
    exact map_congr_left fun c hc => hkey c (hperm.mem_iff.mp hc)
  constructor
  · intro hsub a ha b hb hlt
    by_contra hno
    have hab : a ≠ b := by
      rintro rfl
      exact (or_self_iff.mp (Std.Total.total (r := fun a b => ¬ lt' b a) (f' a) (f' a))) hlt
    obtain ⟨o, hperm, ho, hpair⟩ := exists_isSortOf_pair ha hb hab hno
    obtain ⟨o', ho', heq⟩ := hsub ⟨_, ho, rfl⟩
    obtain ⟨o'', hperm'', rfl⟩ := exists_perm_of_map ho'.1
    rw [hkeys hperm, map_map, map_map] at heq
    obtain rfl : o'' = o := eq_of_map_eq hnodup (fun _ => hperm''.mem_iff.mp)
      (fun _ => hperm.mem_iff.mp) heq
    have hsorted := (pairwise_map.mp ho'.2).sublist hpair
    exact rel_of_pairwise_cons hsorted mem_cons_self hlt
  · rintro h - ⟨o, ho, rfl⟩
    obtain ⟨o', hperm, rfl, hsort⟩ := exists_isSortOf_of_agree h ho
    exact ⟨_, hsort, (hkeys hperm).symm⟩

theorem orders_eq_iff [Std.Total fun a b => ¬ lt b a] [IsTrans α fun a b => ¬ lt b a]
    [Std.Total fun a b => ¬ lt' b a] [IsTrans β fun a b => ¬ lt' b a] {key : α → κ} {key' : β → κ}
    (hkey : ∀ c ∈ l, key (f c) = key' (f' c)) (hnodup : (l.map fun c => key' (f' c)).Nodup) :
    Orders lt key (l.map f) = Orders lt' key' (l.map f') ↔
      ∀ a ∈ l, ∀ b ∈ l, (lt (f a) (f b) ↔ lt' (f' a) (f' b)) := by
  have hnodup' : (l.map fun c => key (f c)).Nodup := by rwa [map_congr_left hkey]
  rw [Set.Subset.antisymm_iff, orders_subset_iff hkey hnodup,
    orders_subset_iff (fun c hc => (hkey c hc).symm) hnodup']
  exact ⟨fun h a ha b hb => ⟨h.2 a ha b hb, h.1 a ha b hb⟩,
    fun h => ⟨fun a ha b hb => (h a ha b hb).mpr, fun a ha b hb => (h a ha b hb).mp⟩⟩

end

end StdSort
