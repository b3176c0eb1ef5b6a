import Mathlib.Data.List.Basic
import Mathlib.Data.List.Induction

/-!
# Point-to-point networks

A list of links between nodes, each a network of its own: the interface at the
first end of link `n` has the address `(n, 1)`, the one at the second end `(n, 2)`.
An address belongs to one interface (`eq_of_address`), so that an interface is
found again by its address (`find_address`).

`nextAfter x l` is what follows the first `x` in a list, the next hop of a route.
-/

namespace PointToPoint

open List

variable {α β κ : Type*} [DecidableEq α]

/-- The number of a network and a host in it. -/
abbrev Address := Nat × Nat

/-- An interface of a node, with what is at the other end of its link. -/
structure Interface (α : Type*) where
  address : Address
  remote : α
  remoteAddress : Address
  deriving DecidableEq

/-- The interfaces of a node at one link. -/
def ends (x : α) (link : (α × α) × Nat) : List (Interface α) :=
  (if link.1.1 = x then [⟨(link.2, 1), link.1.2, (link.2, 2)⟩] else []) ++
    if link.1.2 = x then [⟨(link.2, 2), link.1.1, (link.2, 1)⟩] else []

/-- The interfaces of a node, in the order in which the links were installed. -/
def interfaces (links : List (α × α)) (x : α) : List (Interface α) :=
  links.zipIdx.flatMap (ends x)

/-- A link joins two nodes. -/
def Wired (links : List (α × α)) (x y : α) : Prop := (x, y) ∈ links ∨ (y, x) ∈ links

variable {links : List (α × α)} {x y : α} {i j : Interface α}

theorem mem_ends {link : (α × α) × Nat} : i ∈ ends x link ↔
    (link.1.1 = x ∧ i = ⟨(link.2, 1), link.1.2, (link.2, 2)⟩) ∨
    (link.1.2 = x ∧ i = ⟨(link.2, 2), link.1.1, (link.2, 1)⟩) := by
  unfold ends
  rw [mem_append]
  refine or_congr ?_ ?_
  all_goals
    split
    · next h => rw [mem_singleton, and_iff_right h]
    · next h => exact ⟨fun hmem => absurd hmem not_mem_nil, fun hmem => absurd hmem.1 h⟩

theorem mem_interfaces : i ∈ interfaces links x ↔ ∃ a b n, links[n]? = some (a, b) ∧
    ((a = x ∧ i = ⟨(n, 1), b, (n, 2)⟩) ∨ (b = x ∧ i = ⟨(n, 2), a, (n, 1)⟩)) := by
  unfold interfaces
  rw [mem_flatMap]
  constructor
  · rintro ⟨⟨⟨a, b⟩, n⟩, hlink, hend⟩
    exact ⟨a, b, n, mem_zipIdx_iff_getElem?.mp hlink, mem_ends.mp hend⟩
  · rintro ⟨a, b, n, hlink, hend⟩
    exact ⟨((a, b), n), mem_zipIdx_iff_getElem?.mpr hlink, mem_ends.mpr hend⟩

theorem eq_of_address (hi : i ∈ interfaces links x) (hj : j ∈ interfaces links y)
    (h : i.address = j.address) : x = y ∧ i = j := by
  obtain ⟨a, b, n, hlink, hend⟩ := mem_interfaces.mp hi
  obtain ⟨a', b', n', hlink', hend'⟩ := mem_interfaces.mp hj
  have hn : n = n' := by
    have hfst := congrArg Prod.fst h
    rcases hend with ⟨-, rfl⟩ | ⟨-, rfl⟩ <;> rcases hend' with ⟨-, rfl⟩ | ⟨-, rfl⟩ <;> exact hfst
  subst hn
  cases hlink.symm.trans hlink'
  have hsnd := congrArg Prod.snd h
  rcases hend with ⟨rfl, rfl⟩ | ⟨rfl, rfl⟩
  · rcases hend' with ⟨rfl, rfl⟩ | ⟨-, rfl⟩
    · exact ⟨rfl, rfl⟩
    · cases hsnd
  · rcases hend' with ⟨-, rfl⟩ | ⟨rfl, rfl⟩
    · cases hsnd
    · exact ⟨rfl, rfl⟩

theorem wired_iff : Wired links x y ↔ ∃ i ∈ interfaces links x, i.remote = y := by
  constructor
  · rintro (hmem | hmem)
    · obtain ⟨n, hlink⟩ := mem_iff_getElem?.mp hmem
      exact ⟨_, mem_interfaces.mpr ⟨x, y, n, hlink, .inl ⟨rfl, rfl⟩⟩, rfl⟩
    · obtain ⟨n, hlink⟩ := mem_iff_getElem?.mp hmem
      exact ⟨_, mem_interfaces.mpr ⟨y, x, n, hlink, .inr ⟨rfl, rfl⟩⟩, rfl⟩
  · rintro ⟨i, hi, rfl⟩
    obtain ⟨a, b, n, hlink, hend⟩ := mem_interfaces.mp hi
    rcases hend with ⟨rfl, rfl⟩ | ⟨rfl, rfl⟩
    · exact .inl (mem_of_getElem? hlink)
    · exact .inr (mem_of_getElem? hlink)

theorem find_address (hi : i ∈ interfaces links x) :
    (interfaces links x).find? (fun j => j.address = i.address) = some i := by
  have hfound : ((interfaces links x).find? fun j => j.address = i.address).isSome = true :=
    find?_isSome.mpr ⟨i, hi, decide_eq_true rfl⟩
  obtain ⟨j, hj⟩ := Option.isSome_iff_exists.mp hfound
  rw [hj]
  have haddr : j.address = i.address := by simpa using find?_some hj
  exact congrArg some (eq_of_address (mem_of_find?_eq_some hj) hi haddr).2

omit [DecidableEq α] in
/-- A table filled in a loop: an entry for a key stays, though another may replace it. -/
theorem exists_foldl_update [DecidableEq κ] (l : List α) (key : α → κ) (val : α → β) {k : κ}
    (hex : ∃ a ∈ l, key a = k) (m : κ → Option β) : ∃ a ∈ l, key a = k ∧
      l.foldl (fun m a => Function.update m (key a) (some (val a))) m k = some (val a) := by
  induction l using List.reverseRecOn with
  | nil =>
    obtain ⟨a, ha, -⟩ := hex
    cases ha
  | append_singleton l a ih =>
    rw [foldl_append, foldl_cons, foldl_nil]
    by_cases hk : key a = k
    · subst hk
      exact ⟨a, mem_append_right l mem_cons_self, rfl, Function.update_self _ _ _⟩
    · have hold : ∃ b ∈ l, key b = k := by
        obtain ⟨b, hb, hkey⟩ := hex
        cases mem_append.mp hb with
        | inl hb => exact ⟨b, hb, hkey⟩
        | inr hb => exact absurd (mem_singleton.mp hb ▸ hkey) hk
      obtain ⟨b, hb, hkey, hval⟩ := ih hold
      rw [Function.update_of_ne (Ne.symm hk)]
      exact ⟨b, mem_append_left _ hb, hkey, hval⟩

omit [DecidableEq α] in
theorem foldl_update [DecidableEq κ] (l : List α) (key : α → κ) (val : α → β) {k : κ} {v : β}
    (hall : ∀ a ∈ l, key a = k → val a = v) (hex : ∃ a ∈ l, key a = k) (m : κ → Option β) :
    l.foldl (fun m a => Function.update m (key a) (some (val a))) m k = some v := by
  obtain ⟨a, ha, hkey, hval⟩ := exists_foldl_update l key val hex m
  rw [hval, hall a ha hkey]

omit [DecidableEq α] in
theorem mem_of_foldl_update [DecidableEq κ] {l : List α} {key : α → κ} {val : α → β} {k : κ} {v : β}
    (h : l.foldl (fun m a => Function.update m (key a) (some (val a))) (fun _ => none) k = some v) :
    ∃ a ∈ l, key a = k ∧ val a = v := by
  induction l using List.reverseRecOn with
  | nil => cases h
  | append_singleton l a ih =>
    rw [foldl_append, foldl_cons, foldl_nil] at h
    by_cases hk : key a = k
    · subst hk
      rw [Function.update_self] at h
      exact ⟨a, mem_append_right l mem_cons_self, rfl, Option.some.inj h⟩
    · rw [Function.update_of_ne (Ne.symm hk)] at h
      obtain ⟨b, hb, hval⟩ := ih h
      exact ⟨b, mem_append_left _ hb, hval⟩

/-! ## Routes -/

/-- What follows the first `x`. -/
def nextAfter (x : α) : List α → Option α
  | [] => none
  | y :: l => if y = x then l.head? else nextAfter x l

theorem nextAfter_append {l₁ l₂ : List α} (h : x ∉ l₁) :
    nextAfter x (l₁ ++ x :: l₂) = l₂.head? := by
  induction l₁ with
  | nil => exact if_pos rfl
  | cons y l₁ ih =>
    rw [mem_cons, not_or] at h
    rw [cons_append, nextAfter, if_neg (Ne.symm h.1), ih h.2]

omit [DecidableEq α] in
theorem not_mem_of_split {l₁ l₂ : List α} (h : (l₁ ++ x :: y :: l₂).Nodup) :
    x ∉ l₁ ∧ x ∉ y :: l₂ := by
  obtain ⟨-, hnodup, hdisj⟩ := nodup_append.mp h
  exact ⟨fun hx => hdisj x hx x mem_cons_self rfl, (nodup_cons.mp hnodup).1⟩

omit [DecidableEq α] in
theorem ne_last_of_split {l₁ l₂ : List α} {z : α} (h : (l₁ ++ x :: y :: l₂).Nodup)
    (hlast : (l₁ ++ x :: y :: l₂).getLast? = some z) : x ≠ z := by
  rw [getLast?_append, getLast?_cons_cons] at hlast
  rintro rfl
  refine (not_mem_of_split h).2 (mem_of_getLast? ?_)
  cases hrest : (y :: l₂).getLast? with
  | none => exact absurd (getLast?_eq_none_iff.mp hrest) (cons_ne_nil _ _)
  | some z =>
    rw [hrest] at hlast
    exact hlast

/-- What a node does with a packet. -/
inductive Decision (α : Type*)
  | deliver
  | forward (next : α)
  | drop

/-- The nodes that a packet visits up to its delivery, with at most `ttl` hops. -/
def walk (act : α → Decision α) : Nat → α → Option (List α)
  | 0, x =>
    match act x with
    | .deliver => some [x]
    | _ => none
  | ttl + 1, x =>
    match act x with
    | .deliver => some [x]
    | .forward y => (walk act ttl y).map (x :: ·)
    | .drop => none

omit [DecidableEq α] in
/-- A packet follows a route whose nodes forward to the next and whose last delivers. -/
theorem walk_route {act : α → Decision α} (route : List α)
    (hnext : ∀ l₁ x y l₂, route = l₁ ++ x :: y :: l₂ → act x = .forward y)
    (hlast : ∀ l x, route = l ++ [x] → act x = .deliver) {l₂ : List α} :
    ∀ (l₁ : List α) {x : α} {ttl : Nat}, route = l₁ ++ x :: l₂ → l₂.length ≤ ttl →
      walk act ttl x = some (x :: l₂) := by
  induction l₂ with
  | nil =>
    intro l₁ x ttl hroute _
    have hdeliver := hlast l₁ x hroute
    cases ttl with
    | zero | succ ttl => rw [walk, hdeliver]
  | cons y l₂ ih =>
    intro l₁ x ttl hroute httl
    have hforward := hnext l₁ x y l₂ hroute
    cases ttl with
    | zero => exact absurd httl (Nat.not_succ_le_zero _)
    | succ ttl =>
      have hrest : walk act ttl y = some (y :: l₂) :=
        ih (l₁ ++ [x]) (hroute.trans (append_cons _ _ _)) (Nat.le_of_succ_le_succ httl)
      rw [walk, hforward]
      simp only [hrest, Option.map_some]

end PointToPoint
