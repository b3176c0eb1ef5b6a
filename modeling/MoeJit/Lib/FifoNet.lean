import Mathlib.Algebra.BigOperators.Fin
import Mathlib.Algebra.Order.BigOperators.Group.Finset
import Mathlib.Data.ENat.Basic
import Mathlib.Data.Set.Finite.Lemmas

/-!
# Rounds over untagged FIFO channels

Nodes that run lists of rounds and talk over one untagged, reliable FIFO channel
for each ordered pair. In a round a node writes a sequence of units to every
peer and reads from every peer as many units as it asked for; when both are
complete it moves to its next round. Nothing in a unit says which round it
belongs to, and nodes run at any relative speed.

A `System` labels the rounds so that every node runs its own in increasing
order. `Aligned` says that in the run in lock step, label by label, every node
asks for exactly what its peers write. Then every asynchronous run agrees with
the run in lock step:

1. `Reachable.inv`: every stream is what was read followed by what is in the
   channel, and the state of a node is its state in lock step.
2. `got_prefix`: what a node has read in a round is the beginning of what its
   peers write in the round with the same label.
3. `progress`: as long as a node has rounds left, some step is possible, for
   channels of any positive capacity.
4. `exists_finished`, `work_of_run`: every run can be continued to the end, and
   a run of `n` steps uses up `n` units of a finite amount of work.

A receive that takes more than is meant for it starves its node instead
(`starves`): where the receives of a node take more units than its peer writes,
the node never comes to its end.
-/

namespace FifoNet

open List
open Finset (mem_univ sum_congr sum_ite_eq' univ)
open Function (update_apply)

variable {ι V σ ρ : Type*}

/-! ## 1. Networks -/

/-- What a receive does when it has the units it waits for: it ends, it takes
whatever has arrived too, or it ends as soon as there is another unit. -/
inductive Tail
  | stop
  | takeRest
  | await

/-- What a node does in a round. `need` is the number of units it waits for,
where 0 stands for whatever has arrived and `none` for no receive at all. -/
structure Algo (ι V σ ρ : Type*) where
  out : ι → σ → ρ → ι → List V
  need : ι → σ → ρ → ι → Option Nat
  next : ι → σ → ρ → (ι → List V) → σ
  tail : ι → σ → ρ → ι → Tail := fun _ _ _ _ => .stop

/-- A node: its remaining rounds, the first of them the current one, and how
much of the current round it has written and read. -/
structure Node (ι V σ ρ : Type*) where
  todo : List ρ
  st : σ
  sent : ι → Nat := fun _ => 0
  got : ι → List V := fun _ => []

/-- `chan i j` is what `i` wrote to `j` and `j` has not read. -/
structure Net (ι V σ ρ : Type*) where
  node : ι → Node ι V σ ρ
  chan : ι → ι → List V

def Net.init (prog : ι → List ρ) (start : ι → σ) : Net ι V σ ρ :=
  ⟨fun i => { todo := prog i, st := start i }, fun _ _ => []⟩

/-- Every node has run all its rounds. -/
def Finished (w : Net ι V σ ρ) : Prop := ∀ i, (w.node i).todo = []

/-- A receive has all it waits for. -/
def Served : Option Nat → List V → Prop
  | none, got => got = []
  | some 0, got => got ≠ []
  | some (n + 1), got => got.length = n + 1

/-- A receive has come to its end, with `chan` still in its channel. -/
def Ended (need : Option Nat) (got chan : List V) : Tail → Prop
  | .stop => Served need got
  | .takeRest => ∃ n, need = some n ∧ n < got.length
  | .await => Served need got ∧ chan ≠ []

section

variable [DecidableEq ι]

def Net.setNode (w : Net ι V σ ρ) (i : ι) (n : Node ι V σ ρ) : Net ι V σ ρ :=
  { w with node := Function.update w.node i n }

def Net.setChan (w : Net ι V σ ρ) (i j : ι) (l : List V) : Net ι V σ ρ :=
  { w with chan := Function.update w.chan i (Function.update (w.chan i) j l) }

def Node.addSent (n : Node ι V σ ρ) (j : ι) : Node ι V σ ρ :=
  { n with sent := Function.update n.sent j (n.sent j + 1) }

def Node.addGot (n : Node ι V σ ρ) (j : ι) (l : List V) : Node ι V σ ρ :=
  { n with got := Function.update n.got j (n.got j ++ l) }

/-- One step of one node: it writes a unit, reads a unit, reads whatever has
arrived, or leaves its round. -/
inductive Step (A : Algo ι V σ ρ) (cap : ι → ι → ℕ∞) : Net ι V σ ρ → Net ι V σ ρ → Prop
  | send {w : Net ι V σ ρ} {i j : ι} {r : ρ} {rest : List ρ} {v : V} :
      (w.node i).todo = r :: rest →
      (A.out i (w.node i).st r j)[(w.node i).sent j]? = some v →
      ((w.chan i j).length : ℕ∞) < cap i j →
      Step A cap w ((w.setNode i ((w.node i).addSent j)).setChan i j (w.chan i j ++ [v]))
  | recv {w : Net ι V σ ρ} {i j : ι} {r : ρ} {rest : List ρ} {n : Nat} {v : V} {l : List V} :
      (w.node i).todo = r :: rest →
      A.need i (w.node i).st r j = some n → ((w.node i).got j).length < n →
      w.chan j i = v :: l →
      Step A cap w ((w.setNode i ((w.node i).addGot j [v])).setChan j i l)
  | recvAny {w : Net ι V σ ρ} {i j : ι} {r : ρ} {rest : List ρ} {l l' : List V} :
      (w.node i).todo = r :: rest →
      A.need i (w.node i).st r j = some 0 → (w.node i).got j = [] →
      w.chan j i = l ++ l' → l ≠ [] →
      Step A cap w ((w.setNode i ((w.node i).addGot j l)).setChan j i l')
  | recvRest {w : Net ι V σ ρ} {i j : ι} {r : ρ} {rest : List ρ} {n : Nat} {l l' : List V} :
      (w.node i).todo = r :: rest → A.tail i (w.node i).st r j = .takeRest →
      A.need i (w.node i).st r j = some n → ((w.node i).got j).length = n →
      w.chan j i = l ++ l' → l ≠ [] →
      Step A cap w ((w.setNode i ((w.node i).addGot j l)).setChan j i l')
  | finish {w : Net ι V σ ρ} {i : ι} {r : ρ} {rest : List ρ} :
      (w.node i).todo = r :: rest →
      (∀ j, (w.node i).sent j = (A.out i (w.node i).st r j).length) →
      (∀ j, Ended (A.need i (w.node i).st r j) ((w.node i).got j) (w.chan j i)
        (A.tail i (w.node i).st r j)) →
      Step A cap w (w.setNode i
        { todo := rest, st := A.next i (w.node i).st r (w.node i).got })

/-- A run of the network. -/
abbrev Run (A : Algo ι V σ ρ) (cap : ι → ι → ℕ∞) : Net ι V σ ρ → Net ι V σ ρ → Prop :=
  Relation.ReflTransGen (Step A cap)

@[simp] theorem node_setNode (w : Net ι V σ ρ) (i i' : ι) (n : Node ι V σ ρ) :
    (w.setNode i n).node i' = if i' = i then n else w.node i' := by
  simp [Net.setNode, update_apply]

@[simp] theorem chan_setNode (w : Net ι V σ ρ) (i : ι) (n : Node ι V σ ρ) :
    (w.setNode i n).chan = w.chan := rfl

@[simp] theorem node_setChan (w : Net ι V σ ρ) (i j : ι) (l : List V) :
    (w.setChan i j l).node = w.node := rfl

@[simp] theorem chan_setChan (w : Net ι V σ ρ) (i j i' j' : ι) (l : List V) :
    (w.setChan i j l).chan i' j' = if i' = i ∧ j' = j then l else w.chan i' j' := by
  by_cases hi : i' = i
  · subst hi
    simp [Net.setChan, update_apply]
  · simp [Net.setChan, hi]

@[simp] theorem sent_addSent (n : Node ι V σ ρ) (j j' : ι) :
    (n.addSent j).sent j' = if j' = j then n.sent j + 1 else n.sent j' := by
  simp [Node.addSent, update_apply]

@[simp] theorem got_addGot (n : Node ι V σ ρ) (j j' : ι) (l : List V) :
    (n.addGot j l).got j' = if j' = j then n.got j ++ l else n.got j' := by
  simp [Node.addGot, update_apply]

end

/-! ## 2. The run in lock step -/

/-- A network program with labels: every node runs its rounds in the order of
their labels. -/
structure System (ι V σ ρ : Type*) where
  algo : Algo ι V σ ρ
  prog : ι → List ρ
  start : ι → σ
  lab : ρ → Nat
  bound : Nat
  sorted : ∀ i, (prog i).Pairwise fun r r' => lab r < lab r'
  lab_lt : ∀ i, ∀ r ∈ prog i, lab r < bound

variable {t n : Nat}

namespace System

variable (S : System ι V σ ρ)

/-- The round of node `i` with label `t`. -/
def roundAt (i : ι) (t : Nat) : Option ρ := (S.prog i).find? fun r => S.lab r = t

/-- The state of a node before the rounds with label `t`, in lock step. -/
def sync : Nat → ι → σ
  | 0, i => S.start i
  | t + 1, i => (S.roundAt i t).elim (sync t i) fun r =>
      S.algo.next i (sync t i) r fun j =>
        (S.roundAt j t).elim [] fun r' => S.algo.out j (sync t j) r' i

/-- What `i` writes to `j` in its round with label `t`. -/
def outAt (t : Nat) (i j : ι) : List V :=
  (S.roundAt i t).elim [] fun r => S.algo.out i (S.sync t i) r j

/-- What `i` asks of `j` in its round with label `t`. -/
def needAt (t : Nat) (i j : ι) : Option Nat :=
  (S.roundAt i t).bind fun r => S.algo.need i (S.sync t i) r j

/-- What `i` writes to `j` in its rounds with labels below `t`. -/
def before (t : Nat) (i j : ι) : List V := (List.range t).flatMap fun s => S.outAt s i j

/-- What is asked for is what is written. -/
def Answers : Option Nat → List V → Prop
  | none, out => out = []
  | some n, out => 0 < n ∧ out.length = n

/-- In lock step every node asks for exactly what its peers write to it. -/
structure Aligned : Prop where
  answers : ∀ t i j, Answers (S.needAt t i j) (S.outAt t j i)
  plain : ∀ i, ∀ r ∈ S.prog i, ∀ st j, S.algo.tail i st r j = .stop := by
    intros
    rfl

/-- The label of the first of some remaining rounds. -/
def stage : List ρ → Nat
  | [] => S.bound
  | r :: _ => S.lab r

variable {S}

variable {i : ι} {r : ρ}

theorem sync_succ (h : S.roundAt i t = some r) :
    S.sync (t + 1) i = S.algo.next i (S.sync t i) r fun j => S.outAt t j i := by
  rw [sync, h]
  rfl

theorem sync_succ_of_none (h : S.roundAt i t = none) : S.sync (t + 1) i = S.sync t i := by
  rw [sync, h]
  rfl

theorem outAt_of_some (h : S.roundAt i t = some r) (j : ι) :
    S.outAt t i j = S.algo.out i (S.sync t i) r j := by
  rw [outAt, h]
  rfl

theorem outAt_of_none (h : S.roundAt i t = none) (j : ι) : S.outAt t i j = [] := by
  rw [outAt, h]
  rfl

theorem needAt_of_some (h : S.roundAt i t = some r) (j : ι) :
    S.needAt t i j = S.algo.need i (S.sync t i) r j := by
  rw [needAt, h]
  rfl

theorem Aligned.outAt_to_of_none (hal : S.Aligned) (h : S.roundAt i t = none) (j : ι) :
    S.outAt t j i = [] := by
  have := hal.answers t i j
  rw [needAt, h] at this
  exact this

theorem before_succ (t : Nat) (i j : ι) :
    S.before (t + 1) i j = S.before t i j ++ S.outAt t i j := by
  rw [before, range_succ, flatMap_append]
  simp [before]

theorem before_prefix {t' : Nat} (h : t ≤ t') (i j : ι) : S.before t i j <+: S.before t' i j := by
  induction t', h using Nat.le_induction with
  | base => exact prefix_rfl
  | succ n _ ih =>
    rw [before_succ]
    exact ih.trans (prefix_append _ _)

theorem eq_of_lab_eq {r' : ρ} (hr : r ∈ S.prog i) (hr' : r' ∈ S.prog i) (h : S.lab r = S.lab r') :
    r = r' := by
  have hnodup : ((S.prog i).map S.lab).Nodup :=
    pairwise_map.mpr ((S.sorted i).imp fun hlt => ne_of_lt hlt)
  exact inj_on_of_nodup_map hnodup hr hr' h

theorem roundAt_eq_some : S.roundAt i t = some r ↔ r ∈ S.prog i ∧ S.lab r = t := by
  have hfound : ∀ r', S.roundAt i t = some r' → r' ∈ S.prog i ∧ S.lab r' = t := by
    intro r' h
    rw [roundAt] at h
    exact ⟨mem_of_find?_eq_some h, by simpa using find?_some h⟩
  constructor
  · exact hfound r
  · rintro ⟨hmem, hlab⟩
    obtain ⟨r', hr'⟩ : ∃ r', S.roundAt i t = some r' :=
      Option.isSome_iff_exists.mp (find?_isSome.mpr ⟨r, hmem, decide_eq_true hlab⟩)
    obtain ⟨hmem', hlab'⟩ := hfound r' hr'
    rw [hr', eq_of_lab_eq hmem' hmem (hlab'.trans hlab.symm)]

theorem lab_lt_stage {rest : List ρ} (h : (r :: rest) <:+ S.prog i) : S.lab r < S.stage rest := by
  cases rest with
  | nil => exact S.lab_lt i r (h.subset mem_cons_self)
  | cons r' _ =>
    exact rel_of_pairwise_cons ((S.sorted i).sublist h.sublist) mem_cons_self

theorem stage_le {todo : List ρ} (h : todo <:+ S.prog i) (hr : r ∈ todo) :
    S.stage todo ≤ S.lab r := by
  cases todo with
  | nil => exact absurd hr not_mem_nil
  | cons r' rest =>
    rcases mem_cons.mp hr with rfl | hrest
    · exact le_refl _
    · exact le_of_lt (rel_of_pairwise_cons ((S.sorted i).sublist h.sublist) hrest)

theorem roundAt_gap {rest : List ρ} (h : (r :: rest) <:+ S.prog i) (h₁ : S.lab r < t)
    (h₂ : t < S.stage rest) : S.roundAt i t = none := by
  cases hround : S.roundAt i t with
  | none => rfl
  | some r' =>
    obtain ⟨hmem, rfl⟩ := roundAt_eq_some.mp hround
    obtain ⟨ran, hran⟩ := h
    have hsorted := S.sorted i
    rw [← hran] at hmem hsorted
    rcases mem_append.mp hmem with hbefore | hcur
    · have := (pairwise_append.mp hsorted).2.2 r' hbefore r mem_cons_self
      omega
    · rcases mem_cons.mp hcur with rfl | hrest
      · omega
      · have hsuffix : rest <:+ S.prog i := ⟨ran ++ [r], by simpa using hran⟩
        have := stage_le hsuffix hrest
        omega

theorem roundAt_first (h : t < S.stage (S.prog i)) : S.roundAt i t = none := by
  cases hround : S.roundAt i t with
  | none => rfl
  | some r =>
    obtain ⟨hmem, rfl⟩ := roundAt_eq_some.mp hround
    have := stage_le (suffix_refl _) hmem
    omega

/-- Labels that a node sits out change neither its state nor its streams. -/
theorem Aligned.idle (hal : S.Aligned) {t' : Nat} (hle : t ≤ t')
    (h : ∀ s, t ≤ s → s < t' → S.roundAt i s = none) :
    S.sync t' i = S.sync t i ∧
    ∀ j, S.before t' i j = S.before t i j ∧ S.before t' j i = S.before t j i := by
  induction t', hle using Nat.le_induction with
  | base => exact ⟨rfl, fun _ => ⟨rfl, rfl⟩⟩
  | succ n hn ih =>
    obtain ⟨hst, hstream⟩ := ih fun s h₁ h₂ => h s h₁ (by omega)
    have hnone := h n hn (Nat.lt_succ_self n)
    refine ⟨(sync_succ_of_none hnone).trans hst, fun j => ?_⟩
    obtain ⟨hw, hr⟩ := hstream j
    rw [before_succ, before_succ, outAt_of_none hnone, hal.outAt_to_of_none hnone, hw, hr]
    exact ⟨append_nil _, append_nil _⟩

end System

/-! ## 3. Every run agrees with the run in lock step -/

section

variable {S : System ι V σ ρ}

/-- Everything `i` has written to `j`. -/
def written (S : System ι V σ ρ) (w : Net ι V σ ρ) (i j : ι) : List V :=
  S.before (S.stage (w.node i).todo) i j ++
    (S.outAt (S.stage (w.node i).todo) i j).take ((w.node i).sent j)

/-- Everything `i` has read from `j`. -/
def read (S : System ι V σ ρ) (w : Net ι V σ ρ) (i j : ι) : List V :=
  S.before (S.stage (w.node i).todo) j i ++ (w.node i).got j

/-- How the states of a run relate to the run in lock step. -/
structure Inv (S : System ι V σ ρ) (w : Net ι V σ ρ) : Prop where
  suffix : ∀ i, (w.node i).todo <:+ S.prog i
  st : ∀ i, (w.node i).st = S.sync (S.stage (w.node i).todo) i
  sent_le : ∀ i j, (w.node i).sent j ≤ (S.outAt (S.stage (w.node i).todo) i j).length
  got_le : ∀ i j, ((w.node i).got j).length ≤ (S.outAt (S.stage (w.node i).todo) j i).length
  stream : ∀ i j, written S w i j = read S w j i ++ w.chan i j

variable {w : Net ι V σ ρ} {i : ι} {r : ρ} {rest : List ρ} {cap : ι → ι → ℕ∞}

theorem roundAt_current (h : Inv S w) (htodo : (w.node i).todo = r :: rest) :
    S.roundAt i (S.lab r) = some r :=
  System.roundAt_eq_some.mpr ⟨(htodo ▸ h.suffix i).subset mem_cons_self, rfl⟩

/-- The current round of a node, in terms of the run in lock step. -/
theorem Inv.current (h : Inv S w) (htodo : (w.node i).todo = r :: rest) :
    (∀ j, S.algo.out i (w.node i).st r j = S.outAt (S.stage (w.node i).todo) i j) ∧
    ∀ j, S.algo.need i (w.node i).st r j = S.needAt (S.stage (w.node i).todo) i j := by
  have hround := roundAt_current h htodo
  have hst := h.st i
  rw [htodo, System.stage] at hst ⊢
  exact ⟨fun j => by rw [hst, System.outAt_of_some hround],
    fun j => by rw [hst, System.needAt_of_some hround]⟩

/-- What a node has read in its current round is the beginning of what its
peers write in their rounds with the same label. -/
theorem Inv.got_prefix (h : Inv S w) (i j : ι) :
    (w.node i).got j <+: S.outAt (S.stage (w.node i).todo) j i := by
  generalize ht : S.stage (w.node i).todo = t
  -- both are parts of the whole stream from `j` to `i`
  obtain ⟨T, htT, hjT⟩ : ∃ T, t + 1 ≤ T ∧ S.stage (w.node j).todo + 1 ≤ T :=
    ⟨max (t + 1) (S.stage (w.node j).todo + 1), le_max_left _ _, le_max_right _ _⟩
  have hwritten : written S w j i <+: S.before T j i := by
    refine List.IsPrefix.trans ?_ (System.before_prefix hjT j i)
    rw [written, System.before_succ]
    exact (prefix_append_right_inj _).mpr ( take_prefix _ _)
  have hread : read S w i j <+: S.before T j i := by
    refine List.IsPrefix.trans ?_ hwritten
    rw [h.stream]
    exact prefix_append _ _
  have hnext : S.before t j i ++ S.outAt t j i <+: S.before T j i := by
    rw [← System.before_succ]
    exact System.before_prefix htT j i
  rw [read, ht] at hread
  have hlen := h.got_le i j
  rw [ht] at hlen
  exact (prefix_append_right_inj _).mp
    (prefix_of_prefix_length_le hread hnext (by simpa using hlen))

theorem inv_init (hal : S.Aligned) : Inv S (Net.init S.prog S.start) where
  suffix i := suffix_refl _
  st i := by
    obtain ⟨hst, -⟩ := hal.idle (Nat.zero_le (S.stage (S.prog i)))
      fun s _ hs => System.roundAt_first hs
    exact hst.symm
  sent_le i j := Nat.zero_le _
  got_le i j := Nat.zero_le _
  stream i j := by
    have hempty : ∀ i j, S.before (S.stage (S.prog i)) i j = [] ∧
        S.before (S.stage (S.prog i)) j i = [] := fun i j =>
      (hal.idle (Nat.zero_le (S.stage (S.prog i))) fun s _ hs => System.roundAt_first hs).2 j
    have hw := (hempty i j).1
    have hr := (hempty j i).2
    simp [written, read, Net.init, hw, hr]

/-- In a system in lock step no receive waits for whatever has arrived. -/
theorem Inv.need_pos (hal : S.Aligned) (h : Inv S w) {j : ι} (htodo : (w.node i).todo = r :: rest) :
    S.algo.need i (w.node i).st r j ≠ some 0 := by
  intro hzero
  rw [(h.current htodo).2 j] at hzero
  have hans := hal.answers (S.stage (w.node i).todo) i j
  rw [hzero] at hans
  exact lt_irrefl 0 hans.1

theorem Inv.tail_eq (hal : S.Aligned) (h : Inv S w) (htodo : (w.node i).todo = r :: rest) (j : ι) :
    S.algo.tail i (w.node i).st r j = .stop :=
  hal.plain i r ((htodo ▸ h.suffix i).subset mem_cons_self) _ j

theorem Inv.served (hal : S.Aligned) (h : Inv S w) (htodo : (w.node i).todo = r :: rest) {j : ι}
    (hended : Ended (S.algo.need i (w.node i).st r j) ((w.node i).got j) (w.chan j i)
      (S.algo.tail i (w.node i).st r j)) :
    Served (S.algo.need i (w.node i).st r j) ((w.node i).got j) := by
  rwa [h.tail_eq hal htodo] at hended

/-- A receive that has all it waits for has all that the peer writes. -/
theorem Inv.got_eq_of_served (hal : S.Aligned) (h : Inv S w) {j : ι}
    (htodo : (w.node i).todo = r :: rest)
    (hserved : Served (S.algo.need i (w.node i).st r j) ((w.node i).got j)) :
    (w.node i).got j = S.outAt (S.stage (w.node i).todo) j i := by
  have hans := hal.answers (S.stage (w.node i).todo) i j
  have hpos := h.need_pos (j := j) hal htodo
  rw [(h.current htodo).2 j] at hserved hpos
  refine (h.got_prefix i j).eq_of_length ?_
  cases hneed : S.needAt (S.stage (w.node i).todo) i j with
  | none =>
    rw [hneed] at hserved hans
    rw [show (w.node i).got j = [] from hserved, show S.outAt _ j i = [] from hans]
  | some n =>
    rw [hneed] at hserved hpos hans
    cases n with
    | zero => exact absurd rfl hpos
    | succ n => rw [show ((w.node i).got j).length = n + 1 from hserved, hans.2]

theorem length_written (h : Inv S w) (i j : ι) : (written S w i j).length =
      (S.before (S.stage (w.node i).todo) i j).length + (w.node i).sent j := by
  rw [written, length_append, length_take, min_eq_left (h.sent_le i j)]

theorem length_read (i j : ι) : (read S w i j).length =
      (S.before (S.stage (w.node i).todo) j i).length + ((w.node i).got j).length := by
  rw [read, length_append]

theorem length_before_succ_le {t' : Nat} (h : t < t') (i j : ι) :
    (S.before t i j).length + (S.outAt t i j).length ≤ (S.before t' i j).length := by
  have := (System.before_prefix (S := S) (Nat.succ_le_of_lt h) i j).length_le
  rwa [Nat.succ_eq_add_one, System.before_succ, length_append] at this

/-- A node that is done with a round has read what its peers wrote in it. -/
theorem Inv.entered (h : Inv S w) {j : ι} (hout : 0 < (S.outAt t j i).length)
    (hdone : t < S.stage (w.node i).todo) : t ≤ S.stage (w.node j).todo := by
  by_contra hbehind
  have hstream := congrArg List.length (h.stream j i)
  rw [length_append, length_written h, length_read] at hstream
  have hsent := h.sent_le j i
  have hread := length_before_succ_le (S := S) hdone j i
  have hwritten := length_before_succ_le (S := S) (not_le.mp hbehind) j i
  omega

/-- A node whose stage is a label is in the round with that label. -/
theorem todo_of_stage (h : S.stage (w.node i).todo < S.bound) :
    ∃ r rest, (w.node i).todo = r :: rest ∧ S.stage (w.node i).todo = S.lab r := by
  cases htodo : (w.node i).todo with
  | nil =>
    rw [htodo, System.stage] at h
    exact absurd h (lt_irrefl _)
  | cons r rest => exact ⟨r, rest, rfl, rfl⟩

variable [DecidableEq ι]

theorem inv_send (h : Inv S w) {j : ι} {v : V} (htodo : (w.node i).todo = r :: rest)
    (hv : (S.algo.out i (w.node i).st r j)[(w.node i).sent j]? = some v) :
    Inv S ((w.setNode i ((w.node i).addSent j)).setChan i j (w.chan i j ++ [v])) := by
  rw [(h.current htodo).1 j] at hv
  have hlt := (List.getElem?_eq_some_iff.mp hv).1
  have hnode : ∀ i', ((w.setNode i ((w.node i).addSent j)).node i').todo = (w.node i').todo ∧
      ((w.setNode i ((w.node i).addSent j)).node i').st = (w.node i').st ∧
      ((w.setNode i ((w.node i).addSent j)).node i').got = (w.node i').got ∧
      ∀ j', ((w.setNode i ((w.node i).addSent j)).node i').sent j' =
        if i' = i ∧ j' = j then (w.node i).sent j + 1 else (w.node i').sent j' := by
    intro i'
    by_cases hi : i' = i
    · subst hi
      simp [Node.addSent, update_apply]
    · simp [hi]
  refine ⟨fun i' => ?_, fun i' => ?_, fun i' j' => ?_, fun i' j' => ?_, fun i' j' => ?_⟩
  · rw [node_setChan, (hnode i').1]
    exact h.suffix i'
  · rw [node_setChan, (hnode i').1, (hnode i').2.1]
    exact h.st i'
  · rw [node_setChan, (hnode i').1, (hnode i').2.2.2]
    split
    · next heq =>
      obtain ⟨rfl, rfl⟩ := heq
      exact hlt
    · exact h.sent_le i' j'
  · rw [node_setChan, (hnode i').1, (hnode i').2.2.1]
    exact h.got_le i' j'
  · rw [written, read, node_setChan, (hnode i').1, (hnode j').1, (hnode i').2.2.2,
      (hnode j').2.2.1, chan_setChan]
    have hs := h.stream i' j'
    rw [written, read] at hs
    by_cases heq : i' = i ∧ j' = j
    · obtain ⟨rfl, rfl⟩ := heq
      rw [if_pos ⟨rfl, rfl⟩, if_pos ⟨rfl, rfl⟩, take_add_one, hv, ← append_assoc, hs]
      simp
    · rw [if_neg heq, if_neg heq]
      exact hs

theorem inv_recv (hal : S.Aligned) (h : Inv S w) {j : ι} {v : V} {l : List V}
    (htodo : (w.node i).todo = r :: rest) (hneed : S.algo.need i (w.node i).st r j = some n)
    (hlt : ((w.node i).got j).length < n) (hchan : w.chan j i = v :: l) :
    Inv S ((w.setNode i ((w.node i).addGot j [v])).setChan j i l) := by
  rw [(h.current htodo).2 j] at hneed
  have hans := hal.answers (S.stage (w.node i).todo) i j
  rw [hneed] at hans
  have hnode : ∀ i', ((w.setNode i ((w.node i).addGot j [v])).node i').todo = (w.node i').todo ∧
      ((w.setNode i ((w.node i).addGot j [v])).node i').st = (w.node i').st ∧
      ((w.setNode i ((w.node i).addGot j [v])).node i').sent = (w.node i').sent ∧
      ∀ j', ((w.setNode i ((w.node i).addGot j [v])).node i').got j' =
        if i' = i ∧ j' = j then (w.node i).got j ++ [v] else (w.node i').got j' := by
    intro i'
    by_cases hi : i' = i
    · subst hi
      simp [Node.addGot, update_apply]
    · simp [hi]
  refine ⟨fun i' => ?_, fun i' => ?_, fun i' j' => ?_, fun i' j' => ?_, fun i' j' => ?_⟩
  · rw [node_setChan, (hnode i').1]
    exact h.suffix i'
  · rw [node_setChan, (hnode i').1, (hnode i').2.1]
    exact h.st i'
  · rw [node_setChan, (hnode i').1, (hnode i').2.2.1]
    exact h.sent_le i' j'
  · rw [node_setChan, (hnode i').1, (hnode i').2.2.2]
    split
    · next heq =>
      obtain ⟨rfl, rfl⟩ := heq
      rw [length_append, length_singleton, hans.2]
      exact hlt
    · exact h.got_le i' j'
  · rw [written, read, node_setChan, (hnode i').1, (hnode j').1, (hnode i').2.2.1,
      (hnode j').2.2.2, chan_setChan]
    have hs := h.stream i' j'
    rw [written, read] at hs
    by_cases heq : i' = j ∧ j' = i
    · obtain ⟨rfl, rfl⟩ := heq
      rw [if_pos ⟨rfl, rfl⟩, if_pos ⟨rfl, rfl⟩, hs, hchan]
      simp
    · rw [if_neg heq, if_neg (fun hc => heq ⟨hc.2, hc.1⟩)]
      exact hs

theorem inv_finish (hal : S.Aligned) (h : Inv S w) (htodo : (w.node i).todo = r :: rest)
    (hsent : ∀ j, (w.node i).sent j = (S.algo.out i (w.node i).st r j).length)
    (hserved : ∀ j, Served (S.algo.need i (w.node i).st r j) ((w.node i).got j)) {n : Node ι V σ ρ}
    (hn : n = { todo := rest, st := S.algo.next i (w.node i).st r (w.node i).got }) :
    Inv S (w.setNode i n) := by
  have hsuffix : (r :: rest) <:+ S.prog i := htodo ▸ h.suffix i
  have hlt := System.lab_lt_stage hsuffix
  have hround := roundAt_current h htodo
  have hgot : ∀ j, (w.node i).got j = S.outAt (S.lab r) j i := fun j => by
    have := h.got_eq_of_served hal htodo (hserved j)
    rwa [htodo, System.stage] at this
  obtain ⟨hidle, hstream⟩ := hal.idle hlt fun s h₁ h₂ => System.roundAt_gap hsuffix h₁ h₂
  have hst : S.algo.next i (w.node i).st r (w.node i).got = S.sync (S.stage rest) i := by
    have hcur := h.st i
    rw [htodo, System.stage] at hcur
    rw [Nat.succ_eq_add_one, System.sync_succ hround] at hidle
    rw [hidle, hcur, funext hgot]
  -- in its streams, the node goes on from a whole round to the next
  have hwrite : ∀ j, written S w i j = S.before (S.stage rest) i j := fun j => by
    rw [(hstream j).1, Nat.succ_eq_add_one, System.before_succ, written, htodo, System.stage,
      hsent j, (h.current htodo).1 j, htodo, System.stage, take_length]
  have hread : ∀ j, read S w i j = S.before (S.stage rest) j i := fun j => by
    rw [(hstream j).2, Nat.succ_eq_add_one, System.before_succ, read, htodo, System.stage, hgot j]
  refine ⟨fun i' => ?_, fun i' => ?_, fun i' j' => ?_, fun i' j' => ?_, fun i' j' => ?_⟩
  · rw [node_setNode]
    split
    · next hi =>
      subst hi hn
      exact (suffix_cons r rest).trans hsuffix
    · exact h.suffix i'
  · rw [node_setNode]
    split
    · next hi =>
      subst hi hn
      exact hst
    · exact h.st i'
  · rw [node_setNode]
    split
    · subst hn
      exact Nat.zero_le _
    · exact h.sent_le i' j'
  · rw [node_setNode]
    split
    · subst hn
      exact Nat.zero_le _
    · exact h.got_le i' j'
  · have hs := h.stream i' j'
    have hw : written S (w.setNode i n) i' j' = written S w i' j' := by
      by_cases hi : i' = i
      · subst hi hn
        rw [hwrite j']
        simp [written]
      · rw [written, node_setNode, if_neg hi, written]
    have hr : read S (w.setNode i n) j' i' = read S w j' i' := by
      by_cases hj : j' = i
      · subst hj hn
        rw [hread i']
        simp [read]
      · rw [read, node_setNode, if_neg hj, read]
    rw [hw, hr, hs, chan_setNode]

theorem inv_step (hal : S.Aligned) {w' : Net ι V σ ρ} (h : Inv S w) (hstep : Step S.algo cap w w') :
    Inv S w' := by
  cases hstep with
  | send htodo hv _ => exact inv_send h htodo hv
  | recv htodo hneed hlt hchan => exact inv_recv hal h htodo hneed hlt hchan
  | recvAny htodo hneed _ _ _ => exact absurd hneed (h.need_pos hal htodo)
  | recvRest htodo htail _ _ _ _ => cases (h.tail_eq hal htodo _).symm.trans htail
  | finish htodo hsent hended =>
    exact inv_finish hal h htodo hsent (fun j => h.served hal htodo (hended j)) rfl

/-- The states of the runs of a system. -/
def Reachable (S : System ι V σ ρ) (cap : ι → ι → ℕ∞) (w : Net ι V σ ρ) : Prop :=
  Run S.algo cap (Net.init S.prog S.start) w

theorem Reachable.inv (hal : S.Aligned) (h : Reachable S cap w) : Inv S w := by
  induction h with
  | refl => exact inv_init hal
  | tail _ hstep ih => exact inv_step hal ih hstep

/-! ## 4. Progress -/

/-- In a state without steps, a node in the earliest stage has read all that is
written to it in its round. -/
theorem got_full_of_stuck (hal : S.Aligned) (hcap : ∀ i j, 0 < cap i j) (h : Inv S w)
    (hstuck : ∀ w', ¬ Step S.algo cap w w') {j : ι} (hlt : S.stage (w.node i).todo < S.bound)
    (hle : S.stage (w.node i).todo ≤ S.stage (w.node j).todo) :
    ((w.node i).got j).length = (S.outAt (S.stage (w.node i).todo) j i).length := by
  obtain ⟨r, rest, htodo, -⟩ := todo_of_stage hlt
  refine Nat.le_antisymm (h.got_le i j) (Nat.not_lt.mp fun hmissing => ?_)
  have hneed := (h.current htodo).2 j
  -- the receive waits, so its channel is empty
  have hempty : w.chan j i = [] := by
    have hans := hal.answers (S.stage (w.node i).todo) i j
    cases hn : S.needAt (S.stage (w.node i).todo) i j with
    | none =>
      rw [hn] at hans
      rw [show S.outAt (S.stage (w.node i).todo) j i = [] from hans] at hmissing
      exact absurd hmissing (Nat.not_lt_zero _)
    | some n =>
      rw [hn] at hans hneed
      cases hchan : w.chan j i with
      | nil => rfl
      | cons v l => exact absurd (.recv htodo hneed (hans.2 ▸ hmissing) hchan) (hstuck _)
  have hlen := congrArg List.length (h.stream j i)
  rw [hempty, append_nil, length_written h, length_read] at hlen
  rcases Nat.eq_or_lt_of_le hle with heq | hlater
  · -- the peer is in the same round, and has a unit left to write
    rw [← heq] at hlen
    have hpeer : (w.node j).sent i < (S.outAt (S.stage (w.node j).todo) j i).length := by
      rw [← heq]
      omega
    obtain ⟨r', rest', htodo', -⟩ := todo_of_stage (heq ▸ hlt)
    obtain ⟨v, hunit⟩ : ∃ v, (S.outAt (S.stage (w.node j).todo) j i)[(w.node j).sent i]? = some v :=
      ⟨_, getElem?_eq_getElem hpeer⟩
    rw [← (h.current htodo').1 i] at hunit
    exact hstuck _ (.send htodo' hunit (by rw [hempty]; exact hcap j i))
  · -- the peer has finished the round, and all it wrote has been read
    have := length_before_succ_le (S := S) hlater j i
    omega

theorem progress [Finite ι] (hal : S.Aligned) (hcap : ∀ i j, 0 < cap i j) (h : Inv S w)
    (hnot : ¬ Finished w) : ∃ w', Step S.algo cap w w' := by
  by_contra hnone
  have hstuck : ∀ w', ¬ Step S.algo cap w w' := not_exists.mp hnone
  obtain ⟨i₀, hi₀⟩ := not_forall.mp hnot
  -- a node in the earliest stage
  obtain ⟨i, hi, hmin⟩ := Set.exists_min_image {i | (w.node i).todo ≠ []}
    (fun i => S.stage (w.node i).todo) (Set.toFinite _) ⟨i₀, hi₀⟩
  obtain ⟨r, rest, htodo⟩ := exists_cons_of_ne_nil hi
  have hlab : S.stage (w.node i).todo = S.lab r := by rw [htodo, System.stage]
  have hlt : S.stage (w.node i).todo < S.bound := by
    rw [hlab]
    exact S.lab_lt i r ((htodo ▸ h.suffix i).subset mem_cons_self)
  have hearliest : ∀ j, S.stage (w.node i).todo ≤ S.stage (w.node j).todo := by
    intro j
    by_cases hj : (w.node j).todo = []
    · rw [hj, System.stage]
      exact le_of_lt hlt
    · exact hmin j hj
  have hgot : ∀ j, ((w.node i).got j).length =
      (S.outAt (S.stage (w.node i).todo) j i).length := fun j =>
    got_full_of_stuck hal hcap h hstuck hlt (hearliest j)
  have hsent : ∀ j, (w.node i).sent j = (S.algo.out i (w.node i).st r j).length := by
    intro j
    rw [(h.current htodo).1 j]
    refine le_antisymm (h.sent_le i j) (not_lt.mp fun hmissing => ?_)
    have hlen := congrArg List.length (h.stream i j)
    rw [length_append, length_written h, length_read] at hlen
    rcases Nat.eq_or_lt_of_le (hearliest j) with heq | hlater
    · have := got_full_of_stuck (j := i) hal hcap h hstuck (heq ▸ hlt) (le_of_eq heq.symm)
      rw [← heq] at this hlen
      omega
    · have := length_before_succ_le (S := S) hlater i j
      omega
  refine hstuck _ (.finish htodo hsent fun j => ?_)
  have hans := hal.answers (S.stage (w.node i).todo) i j
  have hfull := hgot j
  rw [(h.current htodo).2 j, h.tail_eq hal htodo]
  cases hn : S.needAt (S.stage (w.node i).todo) i j with
  | none =>
    rw [hn] at hans
    rw [show S.outAt (S.stage (w.node i).todo) j i = [] from hans] at hfull
    exact length_eq_zero_iff.mp hfull
  | some n =>
    rw [hn] at hans
    cases n with
    | zero => exact absurd hans.1 (lt_irrefl 0)
    | succ n => exact hfull.trans hans.2

/-! ## 5. Termination -/

/-- A run of `n` steps. -/
inductive RunN (A : Algo ι V σ ρ) (cap : ι → ι → ℕ∞) : Nat → Net ι V σ ρ → Net ι V σ ρ → Prop
  | refl (w : Net ι V σ ρ) : RunN A cap 0 w w
  | tail {n : Nat} {w w' w'' : Net ι V σ ρ} :
      RunN A cap n w w' → Step A cap w' w'' → RunN A cap (n + 1) w w''

end

section

variable [Fintype ι] {S : System ι V σ ρ}

/-- The steps a round takes: a unit written or read each, and its end. -/
def cost (S : System ι V σ ρ) (i : ι) (r : ρ) : Nat :=
  ∑ j, ((S.outAt (S.lab r) i j).length + (S.outAt (S.lab r) j i).length) + 1

/-- The steps a node has taken in its current round. -/
def taken (n : Node ι V σ ρ) : Nat := ∑ j, (n.sent j + (n.got j).length)

/-- The steps a node has to take. -/
def nodeWork (S : System ι V σ ρ) (i : ι) (n : Node ι V σ ρ) : Nat :=
  (n.todo.map (cost S i)).sum - taken n

/-- The steps a network has to take. -/
def work (S : System ι V σ ρ) (w : Net ι V σ ρ) : Nat := ∑ i, nodeWork S i (w.node i)

variable {w : Net ι V σ ρ} {cap : ι → ι → ℕ∞}

theorem taken_lt (h : Inv S w) {i : ι} {r : ρ} {rest : List ρ} (htodo : (w.node i).todo = r :: rest)
    : taken (w.node i) < cost S i r := by
  have hsent := h.sent_le i
  have hgot := h.got_le i
  rw [htodo, System.stage] at hsent hgot
  exact Nat.lt_succ_of_le (Finset.sum_le_sum fun j _ => add_le_add (hsent j) (hgot j))

theorem nodeWork_of_todo {i : ι} {n : Node ι V σ ρ} {r : ρ} {rest : List ρ}
    (htodo : n.todo = r :: rest) :
    nodeWork S i n = cost S i r + (rest.map (cost S i)).sum - taken n := by
  rw [nodeWork, htodo, map_cons, sum_cons]

variable [DecidableEq ι]

theorem taken_addSent (n : Node ι V σ ρ) (j : ι) : taken (n.addSent j) = taken n + 1 := by
  have hterm : ∀ j', (n.addSent j).sent j' + ((n.addSent j).got j').length =
      n.sent j' + (n.got j').length + if j' = j then 1 else 0 := by
    intro j'
    rw [sent_addSent, show (n.addSent j).got j' = n.got j' from rfl]
    split
    · next h =>
      subst h
      omega
    · rfl
  simp only [taken, hterm]
  rw [Finset.sum_add_distrib, sum_ite_eq', if_pos (mem_univ j)]

theorem taken_addGot (n : Node ι V σ ρ) (j : ι) (v : V) : taken (n.addGot j [v]) = taken n + 1 := by
  have hterm : ∀ j', (n.addGot j [v]).sent j' + ((n.addGot j [v]).got j').length =
      n.sent j' + (n.got j').length + if j' = j then 1 else 0 := by
    intro j'
    rw [got_addGot, show (n.addGot j [v]).sent j' = n.sent j' from rfl]
    split
    · next h =>
      subst h
      simp [add_assoc]
    · rfl
  simp only [taken, hterm]
  rw [Finset.sum_add_distrib, sum_ite_eq', if_pos (mem_univ j)]

theorem work_setNode {i : ι} {n : Node ι V σ ρ} {chan : ι → ι → List V}
    (h : nodeWork S i (w.node i) = nodeWork S i n + 1) :
    work S w = work S { w.setNode i n with chan := chan } + 1 := by
  have hrest : ∑ i' ∈ univ.erase i, nodeWork S i' (w.node i') =
      ∑ i' ∈ univ.erase i, nodeWork S i' ((w.setNode i n).node i') := by
    refine sum_congr rfl fun i' hi' => ?_
    rw [node_setNode, if_neg (Finset.ne_of_mem_erase hi')]
  calc work S w
      = ∑ i' ∈ univ.erase i, nodeWork S i' (w.node i') + nodeWork S i (w.node i) :=
        (Finset.sum_erase_add _ _ (mem_univ i)).symm
    _ = ∑ i' ∈ univ.erase i, nodeWork S i' ((w.setNode i n).node i') +
          nodeWork S i ((w.setNode i n).node i) + 1 := by
        rw [hrest, h, node_setNode, if_pos rfl, add_assoc]
    _ = work S { w.setNode i n with chan := chan } + 1 := by
        rw [Finset.sum_erase_add _ _ (mem_univ i)]
        rfl

theorem work_step (hal : S.Aligned) {w' : Net ι V σ ρ} (h : Inv S w) (hstep : Step S.algo cap w w')
    : work S w = work S w' + 1 := by
  have hinv' := inv_step hal h hstep
  cases hstep with
  | @send i j r rest v htodo hv _ =>
    refine work_setNode ?_
    have htodo' : ((w.node i).addSent j).todo = r :: rest := htodo
    have hlt : taken ((w.node i).addSent j) < cost S i r := by
      have hnode := taken_lt hinv' (i := i) (by simpa using htodo')
      simpa using hnode
    rw [nodeWork_of_todo htodo, nodeWork_of_todo htodo', taken_addSent] at *
    omega
  | @recv i j r rest n v l htodo hneed _ hchan =>
    refine work_setNode ?_
    have htodo' : ((w.node i).addGot j [v]).todo = r :: rest := htodo
    have hlt : taken ((w.node i).addGot j [v]) < cost S i r := by
      have hnode := taken_lt hinv' (i := i) (by simpa using htodo')
      simpa using hnode
    rw [nodeWork_of_todo htodo, nodeWork_of_todo htodo', taken_addGot] at *
    omega
  | recvAny htodo hneed _ _ _ => exact absurd hneed (h.need_pos hal htodo)
  | recvRest htodo htail _ _ _ _ => cases (h.tail_eq hal htodo _).symm.trans htail
  | @finish i r rest htodo hsent hended =>
    refine work_setNode ?_
    -- the round is complete but for its last step
    have hall : taken (w.node i) + 1 = cost S i r := by
      rw [taken, cost]
      congr 1
      refine sum_congr rfl fun j _ => ?_
      have hgot := h.got_eq_of_served hal htodo (h.served hal htodo (hended j))
      rw [hsent j, (h.current htodo).1 j, hgot, htodo, System.stage]
    have hzero : taken ({ todo := rest, st := S.algo.next i (w.node i).st r (w.node i).got } :
        Node ι V σ ρ) = 0 := by simp [taken]
    rw [nodeWork_of_todo htodo, nodeWork, hzero]
    simp only
    omega

/-- A run of `n` steps uses up `n` units of work, so no run is longer than the
work there is at its start. -/
theorem work_of_run (hal : S.Aligned) {w' : Net ι V σ ρ} (h : Inv S w)
    (hrun : RunN S.algo cap n w w') : Inv S w' ∧ work S w = work S w' + n := by
  induction hrun with
  | refl => exact ⟨h, rfl⟩
  | tail _ hstep ih =>
    obtain ⟨hinv, hwork⟩ := ih h
    exact ⟨inv_step hal hinv hstep, by rw [hwork, work_step hal hinv hstep]; omega⟩

theorem length_le_work (hal : S.Aligned) {w' : Net ι V σ ρ} (h : Inv S w)
    (hrun : RunN S.algo cap n w w') : n ≤ work S w := by
  rw [(work_of_run hal h hrun).2]
  exact Nat.le_add_left n _

/-- Every run can be continued until all nodes have run all their rounds. -/
theorem exists_finished (hal : S.Aligned) (hcap : ∀ i j, 0 < cap i j) (h : Inv S w) :
    ∃ w', Run S.algo cap w w' ∧ Finished w' := by
  induction hwork : work S w generalizing w with
  | zero =>
    refine ⟨w, .refl, ?_⟩
    by_contra hnot
    obtain ⟨w', hstep⟩ := progress hal hcap h hnot
    have := work_step hal h hstep
    omega
  | succ n ih =>
    by_cases hfin : Finished w
    · exact ⟨w, .refl, hfin⟩
    · obtain ⟨w₁, hstep⟩ := progress hal hcap h hfin
      have := work_step hal h hstep
      obtain ⟨w', hrun, hfin'⟩ := ih (inv_step hal h hstep) (by omega)
      exact ⟨w', .head hstep hrun, hfin'⟩

end

/-! ## 6. Starvation -/

section

variable [DecidableEq ι] {A : Algo ι V σ ρ} {cap : ι → ι → ℕ∞} {i j : ι} {out least : ρ → Nat}

/-- Of `supply` units from node `j`, node `i` has taken at least `least` in each
round that it has run, of `demand` in all. -/
structure Rationed (out least : ρ → Nat) (i j : ι) (supply demand : Nat) (w : Net ι V σ ρ) : Prop where
  sent_le : (w.node j).sent i ≤ ((w.node j).todo.map out).sum
  units : demand + ((w.node i).got j).length + (w.chan j i).length +
    ((w.node j).todo.map out).sum ≤ supply + (w.node j).sent i + ((w.node i).todo.map least).sum

variable {supply demand : Nat} {w w' : Net ι V σ ρ}

/-- A read of units from the channel. -/
theorem Rationed.take (h : Rationed out least i j supply demand w) {i' j' : ι} {l l' : List V}
    (hchan : w.chan j' i' = l ++ l') :
    Rationed out least i j supply demand ((w.setNode i' ((w.node i').addGot j' l)).setChan j' i' l') := by
  have htodo : ∀ k, ((w.setNode i' ((w.node i').addGot j' l)).node k).todo = (w.node k).todo ∧
      ((w.setNode i' ((w.node i').addGot j' l)).node k).sent = (w.node k).sent := fun k => by
    rw [node_setNode]
    split
    · next hk => exact hk ▸ ⟨rfl, rfl⟩
    · exact ⟨rfl, rfl⟩
  refine ⟨?_, ?_⟩
  · rw [node_setChan, (htodo j).1, (htodo j).2]
    exact h.sent_le
  · have hunits := h.units
    rw [node_setChan, (htodo j).1, (htodo j).2, (htodo i).1, chan_setChan]
    by_cases hi : i = i'
    · subst hi
      by_cases hj : j = j'
      · subst hj
        rw [hchan, length_append] at hunits
        simp only [node_setNode, if_true, got_addGot, length_append, and_self]
        omega
      · simpa [hj] using hunits
    · simpa [hi] using hunits

variable (hout : ∀ st r, (A.out j st r i).length = out r)
  (hleast : ∀ st r (got chan : List V), Ended (A.need i st r j) got chan (A.tail i st r j) →
    least r ≤ got.length)
include hout hleast

theorem Rationed.step (h : Rationed out least i j supply demand w) (hstep : Step A cap w w') :
    Rationed out least i j supply demand w' := by
  obtain ⟨hsent_le, hunits⟩ := h
  cases hstep with
  | @send i' j' r rest v htodo hv _ =>
    have hnode : ∀ k, ((w.setNode i' ((w.node i').addSent j')).node k).todo = (w.node k).todo ∧
        ((w.setNode i' ((w.node i').addSent j')).node k).got = (w.node k).got := fun k => by
      rw [node_setNode]
      split
      · next hk => exact hk ▸ ⟨rfl, rfl⟩
      · exact ⟨rfl, rfl⟩
    have hsent : ((w.setNode i' ((w.node i').addSent j')).node j).sent i =
        (w.node j).sent i + if j = i' ∧ i = j' then 1 else 0 := by
      rw [node_setNode]
      by_cases hj : j = i'
      · subst hj
        by_cases hi : i = j' <;> simp [hi]
      · simp [hj]
    refine ⟨?_, ?_⟩
    · rw [node_setChan, hsent, (hnode j).1]
      split
      · next heq =>
        obtain ⟨rfl, rfl⟩ := heq
        have hlt := (List.getElem?_eq_some_iff.mp hv).1
        rw [hout] at hlt
        rw [htodo, map_cons, sum_cons]
        omega
      · exact hsent_le
    · rw [node_setChan, hsent, (hnode j).1, (hnode i).1, (hnode i).2, chan_setChan]
      split
      · next heq =>
        obtain ⟨rfl, rfl⟩ := heq
        rw [length_append, length_singleton]
        omega
      · exact hunits
  | recv _ _ _ hchan => exact .take ⟨hsent_le, hunits⟩ (l := [_]) hchan
  | recvAny _ _ _ hchan _ => exact .take ⟨hsent_le, hunits⟩ hchan
  | recvRest _ _ _ _ hchan _ => exact .take ⟨hsent_le, hunits⟩ hchan
  | @finish i' r rest htodo hsent hended =>
    have hwrites : j = i' → (w.node j).sent i = out r ∧
        ((w.node j).todo.map out).sum = out r + (rest.map out).sum := by
      rintro rfl
      exact ⟨(hsent i).trans (hout _ r), by rw [htodo, map_cons, sum_cons]⟩
    have hreads : i = i' → least r ≤ ((w.node i).got j).length ∧
        ((w.node i).todo.map least).sum = least r + (rest.map least).sum := by
      rintro rfl
      exact ⟨hleast _ r _ _ (hended j), by rw [htodo, map_cons, sum_cons]⟩
    refine ⟨?_, ?_⟩
    · rw [node_setNode]
      split
      · exact Nat.zero_le _
      · exact hsent_le
    · simp only [node_setNode, chan_setNode]
      by_cases hi : i = i'
      · obtain ⟨hleast, hsum⟩ := hreads hi
        by_cases hj : j = i'
        · obtain ⟨hsent, hsum'⟩ := hwrites hj
          simp only [if_pos hi, if_pos hj, length_nil]
          omega
        · simp only [if_pos hi, if_neg hj, length_nil]
          omega
      · by_cases hj : j = i'
        · obtain ⟨hsent, hsum'⟩ := hwrites hj
          simp only [if_neg hi, if_pos hj]
          omega
        · simpa only [if_neg hi, if_neg hj] using hunits

/-- A node whose receives from `j` take more units than `j` writes to it does not
come to the end of its rounds in any run. -/
theorem starves {prog : ι → List ρ} {start : ι → σ}
    (hless : ((prog j).map out).sum < ((prog i).map least).sum)
    (hrun : Run A cap (Net.init prog start) w) : (w.node i).todo ≠ [] := by
  have hrationed : Rationed out least i j ((prog j).map out).sum ((prog i).map least).sum w := by
    induction hrun with
    | refl =>
      refine ⟨Nat.zero_le _, ?_⟩
      simp only [Net.init, length_nil]
      omega
    | tail _ hstep ih => exact ih.step hout hleast hstep
  intro hdone
  have hunits := hrationed.units
  have hsent := hrationed.sent_le
  rw [hdone, map_nil, sum_nil] at hunits
  omega

end

end FifoNet
