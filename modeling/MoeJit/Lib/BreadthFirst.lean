import Mathlib.Data.Fintype.Card
import Mathlib.Data.List.Chain

/-!
# Breadth-first search

A graph is given by the lists of neighbours of its nodes. Breadth-first search from any node finds,
among the shortest paths to its destination, the one that takes the first neighbour it can at every
node (`Way.loop`). So what it does from a node on does not depend on where it started.
-/

namespace BreadthFirst

open List
open Function (update update_of_ne update_self)

variable {V : Type*} [DecidableEq V] (nbr : V → List V) (dest : V)

/-! ## 1. The first shortest path -/

/-- There is a path of at most this length to the destination. -/
def near : Nat → V → Bool
  | 0, v => v = dest
  | n + 1, v => near n v || (nbr v).any (near n)

/-- The path from `v` that takes the first neighbour it can, if the distance is `n`. -/
def path : Nat → V → List V
  | 0, v => [v]
  | n + 1, v => v ::
    match (nbr v).find? (near nbr dest n) with
    | some u => path n u
    | none => []

/-- The distance from `v` is `n`. -/
structure Distance (n : Nat) (v : V) : Prop where
  reaches : near nbr dest n v = true
  far : ∀ m < n, near nbr dest m v = false

variable {nbr dest}

variable {n : Nat}

theorem near_of_le {m : Nat} (hle : m ≤ n) {v : V} (h : near nbr dest m v = true) :
    near nbr dest n v = true := by
  induction hle with
  | refl => exact h
  | step _ ih =>
    rw [near, ih]
    rfl

theorem near_succ {u v : V} (hu : u ∈ nbr v) (h : near nbr dest n u = true) :
    near nbr dest (n + 1) v = true := by
  rw [near, any_eq_true.mpr ⟨u, hu, h⟩, Bool.or_true]

theorem Distance.unique {m : Nat} {v : V} (h : Distance nbr dest m v) (h' : Distance nbr dest n v) :
    m = n := by
  refine le_antisymm (not_lt.mp fun hlt => ?_) (not_lt.mp fun hlt => ?_)
  · exact absurd (h'.reaches.symm.trans (h.far n hlt)) Bool.false_ne_true.symm
  · exact absurd (h.reaches.symm.trans (h'.far m hlt)) Bool.false_ne_true.symm

theorem distance_zero {v : V} : Distance nbr dest 0 v ↔ v = dest := by
  constructor
  · exact fun h => of_decide_eq_true h.reaches
  · exact fun h => ⟨decide_eq_true h, fun _ hm => absurd hm (Nat.not_lt_zero _)⟩

theorem distance_self : Distance nbr dest 0 dest := distance_zero.mpr rfl

theorem exists_near {v : V} (h : Relation.ReflTransGen (fun a b => b ∈ nbr a) v dest) :
    ∃ n, near nbr dest n v = true := by
  induction h using Relation.ReflTransGen.head_induction_on with
  | refl => exact ⟨0, distance_self.reaches⟩
  | head hstep _ ih =>
    obtain ⟨n, hn⟩ := ih
    exact ⟨n + 1, near_succ hstep hn⟩

theorem exists_distance {v : V} (h : near nbr dest n v = true) :
    ∃ m ≤ n, Distance nbr dest m v := by
  have hex : ∃ m, near nbr dest m v = true := ⟨n, h⟩
  exact ⟨Nat.find hex, Nat.find_min' hex h, Nat.find_spec hex, fun m hm =>
    Bool.eq_false_of_not_eq_true (Nat.find_min hex hm)⟩

theorem Distance.next {n : Nat} {v : V} (h : Distance nbr dest (n + 1) v) :
    ∃ front u back, nbr v = front ++ u :: back ∧ (∀ a ∈ front, near nbr dest n a = false) ∧
      (nbr v).find? (near nbr dest n) = some u ∧ Distance nbr dest n u := by
  have hany : (nbr v).any (near nbr dest n) = true := by
    have hnear := h.reaches
    rwa [near, h.far n (Nat.lt_succ_self n), Bool.false_or] at hnear
  obtain ⟨w, hw, hnear⟩ := any_eq_true.mp hany
  obtain ⟨u, hu⟩ := Option.isSome_iff_exists.mp (find?_isSome.mpr ⟨w, hw, hnear⟩)
  obtain ⟨hnear, front, back, hsplit, hfront⟩ := find?_eq_some_iff_append.mp hu
  refine ⟨front, u, back, hsplit, fun a ha => ?_, hu, hnear, fun m hm => ?_⟩
  · exact Bool.eq_false_of_not_eq_true fun hne => absurd hne (by simpa using hfront a ha)
  · refine Bool.eq_false_of_not_eq_true fun hnear => ?_
    have hmem : u ∈ nbr v := hsplit ▸ mem_append_right front mem_cons_self
    have hfar := h.far (m + 1) (Nat.succ_lt_succ hm)
    exact absurd (hfar.symm.trans (near_succ hmem hnear)) Bool.false_ne_true

theorem path_succ {u v : V} (h : (nbr v).find? (near nbr dest n) = some u) :
    path nbr dest (n + 1) v = v :: path nbr dest n u := by
  rw [path, h]

theorem path_eq_cons (n : Nat) (v : V) : ∃ rest, path nbr dest n v = v :: rest := by
  cases n with
  | zero | succ n => exact ⟨_, rfl⟩

theorem Distance.mem_path {v : V} (h : Distance nbr dest n v) {w : V} (hw : w ∈ path nbr dest n v) :
    ∃ m ≤ n, Distance nbr dest m w := by
  induction n generalizing v with
  | zero =>
    obtain rfl := mem_singleton.mp hw
    exact ⟨0, le_refl 0, h⟩
  | succ n ih =>
    obtain ⟨-, u, -, -, -, hu, hdist⟩ := h.next
    rw [path_succ hu] at hw
    rcases mem_cons.mp hw with rfl | hw
    · exact ⟨n + 1, le_refl _, h⟩
    · obtain ⟨m, hm, hdist'⟩ := ih hdist hw
      exact ⟨m, Nat.le_succ_of_le hm, hdist'⟩

theorem Distance.nodup_path {v : V} (h : Distance nbr dest n v) : (path nbr dest n v).Nodup := by
  induction n generalizing v with
  | zero => exact nodup_singleton v
  | succ n ih =>
    obtain ⟨-, u, -, -, -, hu, hdist⟩ := h.next
    rw [path_succ hu]
    refine nodup_cons.mpr ⟨fun hmem => ?_, ih hdist⟩
    obtain ⟨m, hm, hdist'⟩ := hdist.mem_path hmem
    rw [← h.unique hdist'] at hm
    exact Nat.not_succ_le_self n hm

/-! ## 2. The search -/

/-- What the search has found: the grey nodes in order, and the parents. -/
structure State (V : Type*) where
  queue : List V
  parent : V → Option V

/-- A neighbour of `curr` that has no parent yet is pushed. -/
def discover (curr : V) (st : State V) (v : V) : State V :=
  match st.parent v with
  | some _ => st
  | none => ⟨st.queue ++ [v], Function.update st.parent v (some curr)⟩

/-- The loop, with a bound on the number of nodes that are taken from the queue. -/
def loop (nbr : V → List V) (dest : V) : Nat → State V → Option (V → Option V)
  | 0, _ => none
  | fuel + 1, st =>
    match st.queue with
    | [] => none
    | curr :: queue =>
      if curr = dest then some st.parent
      else loop nbr dest fuel ((nbr curr).foldl (discover curr) ⟨queue, st.parent⟩)

theorem foldl_discover (curr : V) (l : List V) (st : State V) : ∃ new,
    (l.foldl (discover curr) st).queue = st.queue ++ new ∧ (∀ v ∈ new, v ∈ l ∧ st.parent v = none) ∧
      ∀ v, (l.foldl (discover curr) st).parent v = if v ∈ new then some curr else st.parent v := by
  induction l generalizing st with
  | nil => exact ⟨[], (append_nil _).symm, forall_mem_nil _, fun _ => rfl⟩
  | cons w l ih =>
    obtain ⟨new, hqueue, hnew, hparent⟩ := ih (discover curr st w)
    rw [foldl_cons]
    cases hw : st.parent w with
    | some p =>
      have hsame : discover curr st w = st := by
        rw [discover, hw]
      rw [hsame] at hqueue hnew hparent
      exact ⟨new, hsame.symm ▸ hqueue, fun v hv => ⟨mem_cons_of_mem w (hnew v hv).1,
        (hnew v hv).2⟩, hsame.symm ▸ hparent⟩
    | none =>
      have hpush : discover curr st w = ⟨st.queue ++ [w], update st.parent w (some curr)⟩ := by
        rw [discover, hw]
      rw [hpush] at hqueue hnew hparent
      have hother : ∀ v ∈ new, v ≠ w := by
        rintro v hv rfl
        have hnone : update st.parent v (some curr) v = none := (hnew v hv).2
        rw [update_self] at hnone
        exact absurd hnone (Option.some_ne_none curr)
      refine ⟨w :: new, ?_, ?_, fun v => ?_⟩
      · rw [hpush, hqueue, append_assoc, singleton_append]
      · intro v hv
        rcases mem_cons.mp hv with rfl | hv
        · exact ⟨mem_cons_self, hw⟩
        · have hnone : update st.parent w (some curr) v = none := (hnew v hv).2
          rw [update_of_ne (hother v hv)] at hnone
          exact ⟨mem_cons_of_mem w (hnew v hv).1, hnone⟩
      · rw [hpush, hparent]
        show (if v ∈ new then some curr else update st.parent w (some curr) v) = _
        by_cases hv : v = w
        · subst hv
          rw [if_neg fun hin => hother v hin rfl, update_self, if_pos mem_cons_self]
        · rw [update_of_ne hv]
          exact if_congr ⟨mem_cons_of_mem w, fun hin => (mem_cons.mp hin).resolve_left hv⟩
            rfl rfl

/-! ## 3. Termination -/

section Fintype

variable [Fintype V]

/-- The nodes that still have to be taken from the queue, at most. -/
def left (st : State V) : Nat :=
  st.queue.length + (Finset.univ.filter fun v => st.parent v = none).card

theorem left_discover (curr : V) (st : State V) (v : V) : left (discover curr st v) = left st := by
  cases hv : st.parent v with
  | some p => rw [discover, hv]
  | none =>
    have herase : (Finset.univ.filter fun u => update st.parent v (some curr) u = none) =
        (Finset.univ.filter fun u => st.parent u = none).erase v := by
      ext u
      by_cases hu : u = v
      · simp [hu]
      · simp [hu]
    have hmem : v ∈ Finset.univ.filter fun u => st.parent u = none := by
      simp [hv]
    rw [discover, hv]
    simp only [left]
    rw [herase, Finset.card_erase_of_mem hmem, length_append, length_singleton]
    have hpos := Finset.card_pos.mpr ⟨v, hmem⟩
    omega

theorem left_foldl_discover (curr : V) (l : List V) (st : State V) :
    left (l.foldl (discover curr) st) = left st := by
  induction l generalizing st with
  | nil => rfl
  | cons v l ih => rw [foldl_cons, ih, left_discover]

end Fintype

/-! ## 4. The path that is found -/

/-- Every node but the first has the one before it as its parent. -/
def Follows (parent : V → Option V) (l : List V) : Prop :=
  l.IsChain fun a b => parent b = some a

/-- The search has come to the node `g` of the first shortest path from `start`, `m` steps before
its end: no node that was found is closer to the destination, and those before `g` in the queue are
not as close. -/
structure OnWay (nbr : V → List V) (dest start : V) (k m : Nat) (g : V) (st : State V) : Prop where
  distance : Distance nbr dest m g
  split : ∃ front back, st.queue = front ++ g :: back ∧
    ∀ v ∈ front, near nbr dest m v = false
  way : ∃ pre, path nbr dest k start = pre ++ path nbr dest m g ∧ Follows st.parent (pre ++ [g])
  found : ∀ v, st.parent v ≠ none → ∀ i < m, near nbr dest i v = false
  queue : ∀ v ∈ st.queue, st.parent v ≠ none

theorem Follows.foldl_discover (curr : V) (l : List V) {st : State V} {way : List V}
    (h : Follows st.parent way) : Follows (l.foldl (discover curr) st).parent way := by
  obtain ⟨new, -, hnew, hparent⟩ := BreadthFirst.foldl_discover curr l st
  refine List.IsChain.imp (fun a b hab => ?_) h
  rw [hparent, if_neg fun hin => ?_]
  · exact hab
  · exact absurd (hab.symm.trans (hnew b hin).2) (Option.some_ne_none a)

variable {start : V} {k m : Nat} {g : V}

theorem OnWay.other {curr : V} {st : State V} {queue : List V}
    (h : OnWay nbr dest start k m g st) (hqueue : st.queue = curr :: queue) (hne : curr ≠ g) :
    curr ≠ dest ∧
      OnWay nbr dest start k m g ((nbr curr).foldl (discover curr) ⟨queue, st.parent⟩) := by
  obtain ⟨new, hnewqueue, hnew, hparent⟩ := foldl_discover curr (nbr curr) ⟨queue, st.parent⟩
  obtain ⟨front, back, hsplit, hfront⟩ := h.split
  cases front with
  | nil =>
    rw [hqueue] at hsplit
    exact absurd (List.cons.inj hsplit).1 hne
  | cons w front =>
    rw [hqueue, cons_append] at hsplit
    obtain ⟨rfl, hrest⟩ := List.cons.inj hsplit
    have hfar : near nbr dest m curr = false := hfront curr mem_cons_self
    refine ⟨?_, h.distance, ⟨front, back ++ new, ?_, fun v hv => ?_⟩, ?_, fun v hv i hi => ?_,
      fun v hv => ?_⟩
    · rintro rfl
      exact absurd (hfar.symm.trans (near_of_le (Nat.zero_le m) distance_self.reaches))
        Bool.false_ne_true
    · rw [hnewqueue, hrest, append_assoc, cons_append]
    · exact hfront v (mem_cons_of_mem curr hv)
    · obtain ⟨pre, hpath, hway⟩ := h.way
      exact ⟨pre, hpath, @Follows.foldl_discover V _ curr (nbr curr) ⟨queue, st.parent⟩ _ hway⟩
    · rw [hparent] at hv
      split at hv
      · next hin =>
        refine Bool.eq_false_of_not_eq_true fun hnear => ?_
        have hclose := near_of_le hi (near_succ (hnew v hin).1 hnear)
        exact absurd (hfar.symm.trans hclose) Bool.false_ne_true
      · exact h.found v hv i hi
    · rw [hparent]
      split
      · exact Option.some_ne_none curr
      · next hout =>
        rw [hnewqueue] at hv
        refine h.queue v ?_
        rw [hqueue]
        exact mem_cons_of_mem curr ((mem_append.mp hv).resolve_right hout)

theorem OnWay.next {st : State V} {queue : List V} (h : OnWay nbr dest start k (m + 1) g st)
    (hqueue : st.queue = g :: queue) : g ≠ dest ∧ ∃ u,
      OnWay nbr dest start k m u ((nbr g).foldl (discover g) ⟨queue, st.parent⟩) := by
  obtain ⟨front, u, back, hsplit, hfront, hu, hdist⟩ := h.distance.next
  have hfound : ∀ v, st.parent v ≠ none → near nbr dest m v = false :=
    fun v hv => h.found v hv m (Nat.lt_succ_self m)
  have hnone : st.parent u = none := by
    by_contra hne
    exact absurd ((hfound u hne).symm.trans hdist.reaches) Bool.false_ne_true
  obtain ⟨new, hnewqueue, hnew, hparent⟩ := foldl_discover g (nbr g) ⟨queue, st.parent⟩
  -- those of `front` that are pushed, then `u`, then the others
  obtain ⟨early, hearly, hearlymem, hearlyparent⟩ := foldl_discover g front ⟨queue, st.parent⟩
  obtain ⟨late, hlate, -, -⟩ :=
    foldl_discover g back (discover g (front.foldl (discover g) ⟨queue, st.parent⟩) u)
  have hout : u ∉ early := fun hin =>
    absurd ((hfront u (hearlymem u hin).1).symm.trans hdist.reaches) Bool.false_ne_true
  have hnew_eq : new = early ++ u :: late := by
    have hpush : (discover g (front.foldl (discover g) ⟨queue, st.parent⟩) u).queue =
        (front.foldl (discover g) ⟨queue, st.parent⟩).queue ++ [u] := by
      rw [discover, hearlyparent, if_neg hout, hnone]
    refine append_cancel_left (show queue ++ new = queue ++ (early ++ u :: late) from ?_)
    rw [← hnewqueue, hsplit, foldl_append, foldl_cons, hlate, hpush, hearly,
      append_assoc, append_assoc, singleton_append]
  have hparent_u : ((nbr g).foldl (discover g) ⟨queue, st.parent⟩).parent u = some g := by
    rw [hparent, hnew_eq, if_pos (mem_append_right early mem_cons_self)]
  refine ⟨?_, u, hdist, ⟨queue ++ early, late, ?_, fun v hv => ?_⟩, ?_, fun v hv i hi => ?_,
    fun v hv => ?_⟩
  · rintro rfl
    exact absurd (h.distance.unique distance_self) (Nat.succ_ne_zero m)
  · rw [hnewqueue, hnew_eq, append_assoc]
  · rcases mem_append.mp hv with hv | hv
    · exact hfound v (h.queue v (hqueue ▸ mem_cons_of_mem g hv))
    · exact hfront v (hearlymem v hv).1
  · obtain ⟨pre, hpath, hway⟩ := h.way
    refine ⟨pre ++ [g], ?_, ?_⟩
    · rw [hpath, path_succ hu, append_assoc, singleton_append]
    · rw [append_assoc, singleton_append, Follows, isChain_split]
      exact ⟨@Follows.foldl_discover V _ g (nbr g) ⟨queue, st.parent⟩ _ hway,
        isChain_pair.mpr hparent_u⟩
  · rw [hparent] at hv
    split at hv
    · next hin =>
      refine Bool.eq_false_of_not_eq_true fun hnear => ?_
      exact absurd ((h.distance.far (i + 1) (Nat.succ_lt_succ hi)).symm.trans
        (near_succ (hnew v hin).1 hnear)) Bool.false_ne_true
    · exact h.found v hv i (Nat.lt_succ_of_lt hi)
  · rw [hparent]
    split
    · exact Option.some_ne_none g
    · next hnot =>
      rw [hnewqueue] at hv
      refine h.queue v ?_
      rw [hqueue]
      exact mem_cons_of_mem g ((mem_append.mp hv).resolve_right hnot)

theorem OnWay.loop [Fintype V] {st : State V} (h : OnWay nbr dest start k m g st) {fuel : Nat}
    (hfuel : left st ≤ fuel) : ∃ parent, BreadthFirst.loop nbr dest fuel st = some parent ∧
      Follows parent (path nbr dest k start) := by
  induction fuel generalizing m g st with
  | zero =>
    obtain ⟨front, back, hsplit, -⟩ := h.split
    rw [left, hsplit, length_append, length_cons] at hfuel
    omega
  | succ fuel ih =>
    rw [BreadthFirst.loop]
    cases hqueue : st.queue with
    | nil =>
      obtain ⟨front, back, hsplit, -⟩ := h.split
      rw [hqueue] at hsplit
      exact absurd hsplit.symm (append_ne_nil_of_right_ne_nil front (cons_ne_nil g back))
    | cons curr queue =>
      have hless : left ((nbr curr).foldl (discover curr) ⟨queue, st.parent⟩) ≤ fuel := by
        rw [left_foldl_discover]
        rw [left, hqueue, length_cons, Nat.add_right_comm] at hfuel
        exact Nat.le_of_succ_le_succ hfuel
      simp only
      by_cases hcurr : curr = g
      · subst hcurr
        cases m with
        | zero =>
          rw [if_pos (distance_zero.mp h.distance)]
          obtain ⟨pre, hpath, hway⟩ := h.way
          exact ⟨st.parent, rfl, hpath ▸ hway⟩
        | succ m =>
          obtain ⟨hne, u, hnext⟩ := h.next hqueue
          rw [if_neg hne]
          exact ih hnext hless
      · obtain ⟨hne, hother⟩ := h.other hqueue hcurr
        rw [if_neg hne]
        exact ih hother hless

theorem loop_path [Fintype V] (h : Distance nbr dest n start) :
    ∃ parent, loop nbr dest (Fintype.card V)
        ⟨[start], update (fun _ => none) start (some start)⟩ = some parent ∧
      Follows parent (path nbr dest n start) := by
  have honly : ∀ v, update (fun _ => none) start (some start) v ≠ none → v = start := by
    intro v hv
    by_contra hne
    exact hv (update_of_ne hne _ _)
  refine OnWay.loop (m := n) (g := start) ⟨h, ⟨[], [], rfl, forall_mem_nil _⟩,
    ⟨[], rfl, isChain_singleton start⟩, fun v hv i hi => ?_, fun v hv => ?_⟩ ?_
  · rw [honly v hv]
    exact h.far i hi
  · rw [mem_singleton.mp hv]
    show update (fun _ => none) start (some start) start ≠ none
    rw [update_self]
    exact Option.some_ne_none start
  · have hmem : start ∉ Finset.univ.filter fun v =>
        update (fun _ => none) start (some start) v = none := by
      simp
    have hlt := Finset.card_lt_univ_of_notMem hmem
    exact (Nat.add_comm _ _).trans_le hlt

/-- The search comes to the destination only where there is a way. -/
theorem exists_near_of_loop {fuel : Nat} {st : State V} {parent : V → Option V}
    (h : loop nbr dest fuel st = some parent)
    (hst : ∀ v ∈ st.queue, ∀ n, near nbr dest n v = true → ∃ n, near nbr dest n start = true) :
    ∃ n, near nbr dest n start = true := by
  induction fuel generalizing st with
  | zero => cases h
  | succ fuel ih =>
    rw [loop] at h
    cases hqueue : st.queue with
    | nil =>
      rw [hqueue] at h
      cases h
    | cons curr queue =>
      rw [hqueue] at h
      simp only at h
      have hcurr := hst curr (hqueue ▸ mem_cons_self)
      split at h
      · next heq => exact hcurr 0 (distance_zero.mpr heq).reaches
      · refine ih h fun v hv n hn => ?_
        obtain ⟨new, hnewqueue, hnew, -⟩ := foldl_discover curr (nbr curr) ⟨queue, st.parent⟩
        rw [hnewqueue] at hv
        rcases mem_append.mp hv with hv | hv
        · exact hst v (hqueue ▸ mem_cons_of_mem curr hv) n hn
        · exact hcurr (n + 1) (near_succ (hnew v hv).1 hn)

/-! ## 5. Ways -/

/-- `l` is the way that the search finds from `v`. -/
def Way (nbr : V → List V) (dest v : V) (l : List V) : Prop :=
  ∃ n, Distance nbr dest n v ∧ path nbr dest n v = l

variable {v : V} {l l' : List V}

theorem Way.unique (h : Way nbr dest v l) (h' : Way nbr dest v l') : l = l' := by
  obtain ⟨n, hdist, rfl⟩ := h
  obtain ⟨n', hdist', rfl⟩ := h'
  rw [hdist.unique hdist']

theorem Way.nodup (h : Way nbr dest v l) : l.Nodup := by
  obtain ⟨n, hdist, rfl⟩ := h
  exact hdist.nodup_path

theorem Way.eq_cons (h : Way nbr dest v l) : ∃ rest, l = v :: rest := by
  obtain ⟨n, -, rfl⟩ := h
  exact path_eq_cons n v

theorem Way.refl (nbr : V → List V) (dest : V) : Way nbr dest dest [dest] := ⟨0, distance_self, rfl⟩

theorem Way.next (h : Way nbr dest v l) (hne : v ≠ dest) :
    ∃ u rest, l = v :: u :: rest ∧ u ∈ nbr v ∧ Way nbr dest u (u :: rest) := by
  obtain ⟨n, hdist, rfl⟩ := h
  cases n with
  | zero => exact absurd (distance_zero.mp hdist) hne
  | succ n =>
    obtain ⟨front, u, back, hsplit, -, hu, hnext⟩ := hdist.next
    obtain ⟨rest, hrest⟩ := @path_eq_cons V _ nbr dest n u
    refine ⟨u, rest, ?_, ?_, n, hnext, hrest⟩
    · rw [path_succ hu, hrest]
    · rw [hsplit]
      exact mem_append_right front mem_cons_self

theorem Way.getLast? (h : Way nbr dest v l) : l.getLast? = some dest := by
  obtain ⟨n, hdist, rfl⟩ := h
  induction n generalizing v with
  | zero => rw [path, getLast?_singleton, distance_zero.mp hdist]
  | succ n ih =>
    obtain ⟨-, u, -, -, -, hu, hnext⟩ := hdist.next
    obtain ⟨rest, hrest⟩ := @path_eq_cons V _ nbr dest n u
    rw [path_succ hu, hrest, getLast?_cons_cons, ← hrest]
    exact ih hnext

theorem exists_way (h : Relation.ReflTransGen (fun a b => b ∈ nbr a) v dest) :
    ∃ l, Way nbr dest v l := by
  obtain ⟨n, hn⟩ := exists_near h
  obtain ⟨m, -, hdist⟩ := exists_distance hn
  exact ⟨_, m, hdist, rfl⟩

theorem Way.loop [Fintype V] (h : Way nbr dest v l) :
    ∃ parent, BreadthFirst.loop nbr dest (Fintype.card V)
        ⟨[v], update (fun _ => none) v (some v)⟩ = some parent ∧ Follows parent l := by
  obtain ⟨n, hdist, rfl⟩ := h
  exact loop_path hdist

theorem way_of_loop [Fintype V] {parent : V → Option V} (h : loop nbr dest (Fintype.card V)
    ⟨[v], update (fun _ => none) v (some v)⟩ = some parent) :
    ∃ l, Way nbr dest v l ∧ Follows parent l := by
  obtain ⟨n, hn⟩ := exists_near_of_loop h fun u hu n hn =>
    ⟨n, mem_singleton.mp hu ▸ hn⟩
  obtain ⟨m, -, hdist⟩ := exists_distance hn
  obtain ⟨parent', hloop, hfollows⟩ := loop_path hdist
  obtain rfl : parent = parent' := Option.some.inj (h.symm.trans hloop)
  exact ⟨_, ⟨m, hdist, rfl⟩, hfollows⟩

end BreadthFirst
