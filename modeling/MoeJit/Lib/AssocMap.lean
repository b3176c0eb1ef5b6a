import Mathlib.Algebra.BigOperators.Group.List.Basic
import Mathlib.Algebra.GroupWithZero.Nat
import Mathlib.Algebra.Order.Group.Nat
import Mathlib.Data.List.AList
import Mathlib.Data.List.Induction

/-!
# Maps with values of one type

Association lists without repeated keys, with two operations that walk the whole
map: `mapVal` changes every value, `total` adds up a measure of the entries.
`insertAll` is the loop that builds a map, and `Changed` relates a map to one with the
same keys and other values.
-/

namespace AssocMap

open List

variable {α β γ : Type*}

/-- Every value changed by a function of its key and itself. -/
def mapVal (f : α → β → γ) (m : AList fun _ : α => β) : AList fun _ : α => γ where
  entries := m.entries.map fun kv => ⟨kv.1, f kv.1 kv.2⟩
  nodupKeys := by
    have hkeys : (m.entries.map fun kv => (⟨kv.1, f kv.1 kv.2⟩ : Sigma fun _ : α => γ)).map
        Sigma.fst = m.entries.map Sigma.fst := by
      rw [List.map_map]
      rfl
    rw [List.NodupKeys, List.keys, hkeys]
    exact m.nodupKeys

/-- The sum of a measure over all entries. -/
def total (f : α → β → Nat) (m : AList fun _ : α => β) : Nat :=
  (m.entries.map fun kv => f kv.1 kv.2).sum

@[simp] theorem total_mapVal (f : α → γ → Nat) (g : α → β → γ) (m : AList fun _ : α => β) :
    total f (mapVal g m) = total (fun k v => f k (g k v)) m := by
  rw [total, mapVal, map_map]
  rfl

theorem total_add (f g : α → β → Nat) (m : AList fun _ : α => β) :
    total (fun k v => f k v + g k v) m = total f m + total g m :=
  sum_map_add

variable [DecidableEq α]

theorem mem_entries_iff {m : AList fun _ : α => β} {kv : Sigma fun _ : α => β} :
    kv ∈ m.entries ↔ m.lookup kv.1 = some kv.2 :=
  AList.mem_lookup_iff.symm

@[simp] theorem lookup_mapVal (f : α → β → γ) (m : AList fun _ : α => β) (k : α) :
    (mapVal f m).lookup k = (m.lookup k).map (f k) := by
  refine Option.ext fun w => ?_
  rw [Option.map_eq_some_iff, ← Option.mem_def, AList.mem_lookup_iff, mapVal, mem_map]
  constructor
  · rintro ⟨⟨k', v⟩, hmem, heq⟩
    cases heq
    exact ⟨v, mem_entries_iff.mp hmem, rfl⟩
  · rintro ⟨v, hlook, rfl⟩
    exact ⟨⟨k, v⟩, mem_entries_iff.mpr hlook, rfl⟩

theorem foldl_update (m : AList fun _ : α => β) (f : β → γ → γ) (q : α → γ) (k : α) :
    m.entries.foldl (fun q kv => Function.update q kv.1 (f kv.2 (q kv.1))) q k =
      (m.lookup k).elim (q k) fun v => f v (q k) := by
  have hother : ∀ (l : List (Sigma fun _ : α => β)) (q : α → γ), k ∉ l.map Sigma.fst →
      l.foldl (fun q kv => Function.update q kv.1 (f kv.2 (q kv.1))) q k = q k := by
    intro l
    induction l with
    | nil => exact fun _ _ => rfl
    | cons kv l ih =>
      intro q hk
      rw [map_cons, mem_cons, not_or] at hk
      rw [foldl_cons, ih _ hk.2, Function.update_of_ne hk.1]
  cases hlook : m.lookup k with
  | none =>
    refine hother m.entries q fun hk => ?_
    exact absurd (AList.mem_keys.mpr hk) (AList.lookup_eq_none.mp hlook)
  | some v =>
    have hmem : (⟨k, v⟩ : Sigma fun _ : α => β) ∈ m.entries := mem_entries_iff.mpr hlook
    obtain ⟨l₁, l₂, hsplit⟩ := append_of_mem hmem
    have hnodup : (m.entries.map Sigma.fst).Nodup := m.nodupKeys
    rw [hsplit, map_append, map_cons, nodup_middle, nodup_cons, mem_append, not_or] at hnodup
    rw [hsplit, foldl_append, foldl_cons, hother l₂ _ hnodup.1.2,
      Function.update_self, hother l₁ q hnodup.1.1]
    rfl

theorem total_insert {m : AList fun _ : α => β} {k : α} (h : k ∉ m) (v : β)
    (f : α → β → Nat) : total f (m.insert k v) = f k v + total f m := by
  rw [total, AList.entries_insert_of_notMem h, map_cons, sum_cons]
  rfl

theorem total_insert_of_lookup {m : AList fun _ : α => β} {k : α} {old : β}
    (hk : m.lookup k = some old) (v : β) (f : α → β → Nat) :
    total f (m.insert k v) + f k old = total f m + f k v := by
  have hkey : k ∈ m.entries.keys := dlookup_isSome.mp (by
    rw [show m.entries.dlookup k = some old from hk]
    rfl)
  obtain ⟨b, l₁, l₂, hnot, hsplit, herase⟩ := exists_of_kerase hkey
  obtain rfl : old = b := by
    have hmem : (⟨k, b⟩ : Sigma fun _ : α => β) ∈ m.entries := by
      rw [hsplit]
      exact mem_append_right l₁ mem_cons_self
    exact Option.some.inj (hk.symm.trans (mem_entries_iff.mp hmem))
  rw [total, total, AList.entries_insert, herase, hsplit]
  simp only [map_cons, map_append, sum_cons, sum_append]
  omega

theorem total_congr {m : AList fun _ : α => β} {f g : α → β → Nat}
    (h : ∀ k v, m.lookup k = some v → f k v = g k v) : total f m = total g m :=
  congrArg List.sum (map_congr_left fun kv hkv => h kv.1 kv.2 (mem_entries_iff.mp hkv))

theorem total_of_eq_of_ne {m : AList fun _ : α => β} {f g : α → β → Nat} {k : α} {v : β}
    (hk : m.lookup k = some v)
    (h : ∀ k' v', k' ≠ k → m.lookup k' = some v' → f k' v' = g k' v') :
    total f m + g k v = total g m + f k v := by
  have hmem : (⟨k, v⟩ : Sigma fun _ : α => β) ∈ m.entries := mem_entries_iff.mpr hk
  obtain ⟨l₁, l₂, hsplit⟩ := append_of_mem hmem
  have hnodup : (m.entries.map Sigma.fst).Nodup := m.nodupKeys
  rw [hsplit, map_append, map_cons, nodup_middle, nodup_cons] at hnodup
  have hrest : ∀ kv ∈ l₁ ++ l₂, f kv.1 kv.2 = g kv.1 kv.2 := fun kv hkv => by
    refine h kv.1 kv.2 (fun heq => hnodup.1 ?_) (mem_entries_iff.mp ?_)
    · rw [← map_append]
      exact mem_map.mpr ⟨kv, hkv, heq⟩
    · rw [hsplit]
      rcases mem_append.mp hkv with h₁ | h₂
      · exact mem_append_left _ h₁
      · exact mem_append_right _ (mem_cons_of_mem _ h₂)
  have hsum : ∀ e : α → β → Nat, total e m =
      e k v + ((l₁ ++ l₂).map fun kv => e kv.1 kv.2).sum := fun e => by
    rw [total, hsplit]
    simp only [map_append, map_cons, sum_append, sum_cons]
    exact Nat.add_left_comm _ _ _
  rw [hsum f, hsum g, map_congr_left hrest]
  omega

theorem le_total {m : AList fun _ : α => β} {k : α} {v : β} (hk : m.lookup k = some v)
    (f : α → β → Nat) : f k v ≤ total f m := by
  have hsum := total_of_eq_of_ne hk (g := fun k' v' => if k' = k then 0 else f k' v')
    fun k' v' hne _ => (if_neg hne).symm
  rw [if_pos rfl, Nat.add_zero] at hsum
  rw [hsum]
  exact Nat.le_add_left _ _

/-! ## Insertion in a loop -/

/-- A loop over `l` that inserts the values of `f`, where there is one, under their keys. -/
def insertAll (l : List γ) (key : γ → α) (f : γ → Option β) :
    AList fun _ : α => β :=
  l.foldl (fun m c => (f c).elim m fun v => m.insert (key c) v) ∅

/-- With different keys for different elements, the value found is that of the element. -/
theorem lookup_insertAll (l : List γ) (key : γ → α) (f : γ → Option β)
    (hinj : ∀ c ∈ l, ∀ c' ∈ l, key c = key c' → c = c') :
    (∀ c ∈ l, (insertAll l key f).lookup (key c) = f c) ∧
    ∀ k, (∀ c ∈ l, key c ≠ k) → (insertAll l key f).lookup k = none := by
  induction l using List.reverseRecOn with
  | nil => exact ⟨nofun, fun _ _ => rfl⟩
  | append_singleton l d ih =>
    obtain ⟨hhere, helse⟩ := ih fun c hc c' hc' =>
      hinj c (mem_append_left _ hc) c' (mem_append_left _ hc')
    have hlast : insertAll (l ++ [d]) key f =
        (f d).elim (insertAll l key f) fun v => (insertAll l key f).insert (key d) v := by
      rw [insertAll, foldl_append]
      rfl
    have hother : ∀ k, k ≠ key d →
        (insertAll (l ++ [d]) key f).lookup k = (insertAll l key f).lookup k := fun k hk => by
      rw [hlast]
      cases f d with
      | none => rfl
      | some v => exact AList.lookup_insert_ne hk
    constructor
    · intro c hc
      by_cases hkey : key c = key d
      · obtain rfl := hinj c hc d (mem_append_right _ (mem_singleton_self d)) hkey
        rw [hlast]
        cases hf : f c with
        | some v => exact AList.lookup_insert _
        | none =>
          -- no value: the key is new, or there was none for it before
          by_cases hmem : c ∈ l
          · exact (hhere c hmem).trans hf
          · refine helse _ fun c' hc' heq => hmem ?_
            exact hinj c' (mem_append_left _ hc') c hc heq ▸ hc'
      · rw [hother _ hkey]
        rcases mem_append.mp hc with hold | hnew
        · exact hhere c hold
        · exact absurd (congrArg key (mem_singleton.mp hnew)) hkey
    · intro k hk
      rw [hother k (hk d (mem_append_right _ (mem_singleton_self d))).symm]
      exact helse k fun c hc => hk c (mem_append_left _ hc)

/-! ## Changed values -/

/-- `m'` is `m` with every value changed in a way that `R` allows. -/
def Changed (R : α → β → β → Prop) (m m' : AList fun _ : α => β) : Prop :=
  ∃ f, m' = mapVal f m ∧ ∀ k v, m.lookup k = some v → R k v (f k v)

variable {R R' T : α → β → β → Prop} {m m' m'' : AList fun _ : α => β}

theorem changed_mapVal {f : α → β → β} (h : ∀ k v, m.lookup k = some v → R k v (f k v)) :
    Changed R m (mapVal f m) :=
  ⟨f, rfl, h⟩

theorem Changed.refl (h : ∀ k v, m.lookup k = some v → R k v v) : Changed R m m :=
  ⟨fun _ v => v, AList.ext (map_id _).symm, h⟩

section

variable (h : Changed R m m')
include h

theorem Changed.lookup {k : α} {v' : β} (hk : m'.lookup k = some v') :
    ∃ v, m.lookup k = some v ∧ R k v v' := by
  obtain ⟨f, rfl, hf⟩ := h
  rw [lookup_mapVal, Option.map_eq_some_iff] at hk
  obtain ⟨v, hv, rfl⟩ := hk
  exact ⟨v, hv, hf k v hv⟩

theorem Changed.trans (h' : Changed R' m' m'')
    (hR : ∀ k v v' v'', R k v v' → R' k v' v'' → T k v v'') : Changed T m m'' := by
  obtain ⟨f, rfl, hf⟩ := h
  obtain ⟨g, rfl, hg⟩ := h'
  refine ⟨fun k v => g k (f k v), AList.ext ?_, fun k v hk => ?_⟩
  · simp only [mapVal, map_map]
    rfl
  · exact hR k v _ _ (hf k v hk) (hg k (f k v) (by rw [lookup_mapVal, hk, Option.map_some]))

theorem Changed.mono_of_lookup (hR : ∀ k v v', m.lookup k = some v → R k v v' → R' k v v') :
    Changed R' m m' := by
  obtain ⟨f, rfl, hf⟩ := h
  exact ⟨f, rfl, fun k v hk => hR k v _ hk (hf k v hk)⟩

theorem Changed.mono (hR : ∀ k v v', R k v v' → R' k v v') : Changed R' m m' :=
  h.mono_of_lookup fun k v v' _ => hR k v v'

theorem Changed.lookup_of {k : α} {v : β} (hk : m.lookup k = some v) :
    ∃ v', m'.lookup k = some v' ∧ R k v v' := by
  obtain ⟨f, rfl, hf⟩ := h
  exact ⟨f k v, by rw [lookup_mapVal, hk, Option.map_some], hf k v hk⟩

theorem Changed.total_eq {c c' : α → β → Nat} (hc : ∀ k v v', R k v v' → c' k v' = c k v) :
    total c' m' = total c m := by
  obtain ⟨f, rfl, hf⟩ := h
  rw [total_mapVal]
  exact total_congr fun k v hk => hc k v _ (hf k v hk)

end

end AssocMap
