import Mathlib.Data.List.GetD
import Mathlib.Data.List.Sort

/-!
# Buckets

A list of buckets, each of which is a list: what they hold together when one of them is changed,
and the insertion into a bucket that is in order.
-/

section Buckets

variable {α : Type}

/-- An index out of range is an empty bucket. -/
def bucketAt (buckets : List (List α)) (i : Nat) : List α := buckets.getD i []

theorem mem_flatten_iff_bucketAt {buckets : List (List α)} {x : α} :
    x ∈ buckets.flatten ↔ ∃ i, x ∈ bucketAt buckets i := by
  unfold bucketAt
  constructor
  · intro h
    obtain ⟨bucket, hbucket, hx⟩ := List.mem_flatten.mp h
    obtain ⟨i, hi, rfl⟩ := List.mem_iff_getElem.mp hbucket
    refine ⟨i, ?_⟩
    rw [← List.getElem_eq_getD (h := hi)]
    exact hx
  · rintro ⟨i, hx⟩
    cases Nat.lt_or_ge i buckets.length with
    | inl hi =>
      rw [← List.getElem_eq_getD (h := hi)] at hx
      exact List.mem_flatten_of_mem (List.getElem_mem hi) hx
    | inr hi =>
      rw [List.getD_eq_default _ _ hi] at hx
      exact absurd hx List.not_mem_nil

theorem bucketAt_replicate (n i : Nat) : bucketAt (List.replicate n ([] : List α)) i = [] := by
  unfold bucketAt
  rw [List.getD_eq_getElem?_getD, List.getElem?_replicate]
  split
  · rfl
  · rfl

theorem bucketAt_modify {buckets : List (List α)} {j : Nat} (hj : j < buckets.length)
    (f : List α → List α) (i : Nat) : bucketAt (buckets.modify j f) i =
      if i = j then f (bucketAt buckets j) else bucketAt buckets i := by
  unfold bucketAt
  rw [List.getD_eq_getElem?_getD, List.getElem?_modify]
  split
  · next heq =>
    rw [if_pos heq.symm, ← heq, List.getElem?_eq_getElem hj, List.getD_eq_getElem _ _ hj]
    rfl
  · next hne =>
    rw [if_neg (Ne.symm hne), List.getD_eq_getElem?_getD]
    cases buckets[i]? with
    | none => rfl
    | some bucket => rfl

theorem flatten_modify {buckets : List (List α)} {j : Nat} (hj : j < buckets.length)
    (f : List α → List α) : ∃ rest, buckets.flatten.Perm (bucketAt buckets j ++ rest) ∧
      (buckets.modify j f).flatten.Perm (f (bucketAt buckets j) ++ rest) := by
  obtain ⟨before, bucket, after, rfl, rfl, hmodify⟩ := List.exists_of_modify f hj
  have hbucket : bucketAt (before ++ bucket :: after) before.length = bucket := by
    unfold bucketAt
    rw [List.getD_append_right _ _ _ _ (Nat.le_refl _), Nat.sub_self]
    rfl
  have hsplit (b : List α) :
      (before ++ b :: after).flatten.Perm (b ++ (before.flatten ++ after.flatten)) := by
    rw [List.flatten_append, List.flatten_cons, ← List.append_assoc, ← List.append_assoc]
    exact List.perm_append_comm.append_right _
  rw [hmodify, hbucket]
  exact ⟨before.flatten ++ after.flatten, hsplit bucket, hsplit (f bucket)⟩

theorem flatten_modify_insert {buckets : List (List α)} {j : Nat} (hj : j < buckets.length)
    {f : List α → List α} {x : α} (hf : (f (bucketAt buckets j)).Perm (x :: bucketAt buckets j)) :
    (buckets.modify j f).flatten.Perm (x :: buckets.flatten) := by
  obtain ⟨rest, hold, hnew⟩ := flatten_modify hj f
  exact hnew.trans ((hf.append_right rest).trans (hold.symm.cons x))

theorem flatten_modify_remove {buckets : List (List α)} {j : Nat} (hj : j < buckets.length)
    {f : List α → List α} {x : α} (hf : (x :: f (bucketAt buckets j)).Perm (bucketAt buckets j)) :
    (x :: (buckets.modify j f).flatten).Perm buckets.flatten := by
  obtain ⟨rest, hold, hnew⟩ := flatten_modify hj f
  exact (hnew.cons x).trans ((hf.append_right rest).trans hold.symm)

theorem pairwise_orderedInsert {r s : α → α → Prop} [DecidableRel r]
    (hr : ∀ a b, r a b ↔ ¬s b a) (htotal : ∀ a b, s a b ∨ s b a)
    (htrans : ∀ a b c, s a b → s b c → s a c) (x : α) {list : List α} (h : list.Pairwise s) :
    (list.orderedInsert r x).Pairwise s := by
  induction list with
  | nil => exact List.pairwise_singleton _ _
  | cons b list ih =>
    obtain ⟨hb, hlist⟩ := List.pairwise_cons.mp h
    rw [List.orderedInsert_cons]
    split
    · next hxb =>
      have hs : s x b := (htotal x b).resolve_right ((hr x b).mp hxb)
      refine List.pairwise_cons.mpr ⟨List.forall_mem_cons.mpr ⟨hs, fun c hc => ?_⟩, h⟩
      exact htrans x b c hs (hb c hc)
    · next hxb =>
      have hs : s b x := Classical.not_not.mp fun hnot => hxb ((hr x b).mpr hnot)
      refine List.pairwise_cons.mpr ⟨fun c hc => ?_, ih hlist⟩
      cases (List.mem_orderedInsert r).mp hc with
      | inl heq => exact heq ▸ hs
      | inr hmem => exact hb c hmem

end Buckets
