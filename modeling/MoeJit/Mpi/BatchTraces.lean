import MoeJit.Lib.StdMaxElement
import Mathlib.Order.Bounds.Basic

/-!
# The batches of DML traces

`parse_DML_batch_traces`: each worker has a trace with one row for each batch. The loop over the
rows takes the least start, the latest end and the largest size of all workers, and appends a batch
when it has read where the next one starts.

`batches_tile`: there is one batch for each row, in order, from the start of its row to the start of
the next one, with the communication of all workers in that row. There has to be a worker
(`no_worker`).
-/

namespace MoeJit.DML

open StdMaxElement List

/-! ## 1. Model -/

/-- What is calculated with numbers of type `double`, which are compared as their values. -/
structure Doubles (F : Type) where
  zero : F
  /-- `std::chrono::nanoseconds{static_cast<int64_t>(x * 1e+9)}`. -/
  nanoseconds : F → Int
  /-- `x + 0.1`. -/
  later : F → F

/-- The columns of a row that are read, all of them texts of numbers. -/
structure Row (F : Type) where
  batch_start_time : F
  comm_start_time : F
  comm_end_time : F
  comm_size : Int

/-- The rows of each worker. -/
abbrev Traces (F : Type) := List (List (Row F))

structure DMLBatchTrace where
  batch : Nat
  batch_start_time : Int
  batch_end_time : Int
  communication_start_time : Int
  communication_end_time : Int
  communication_size : Int
  deriving DecidableEq, Repr

section Parse

variable {F : Type} (D : Doubles F)

/-- The batch of the previous row. -/
def preBatch (i : Nat) (last : Row F) (batch_start_time : F) : DMLBatchTrace where
  batch := i
  batch_start_time := D.nanoseconds last.batch_start_time
  batch_end_time := D.nanoseconds batch_start_time
  communication_start_time := D.nanoseconds last.comm_start_time
  communication_end_time := D.nanoseconds last.comm_end_time
  communication_size := last.comm_size

def lastBatch (size : Nat) (row : Row F) : DMLBatchTrace where
  batch := size
  batch_start_time := D.nanoseconds row.batch_start_time
  batch_end_time := D.nanoseconds (D.later row.comm_end_time)
  communication_start_time := D.nanoseconds row.comm_start_time
  communication_end_time := D.nanoseconds row.comm_end_time
  communication_size := row.comm_size

variable [LinearOrder F]

/-- The row with the communication of another worker. -/
def Row.widen (row cur : Row F) : Row F where
  batch_start_time := row.batch_start_time
  comm_start_time :=
    if row.comm_start_time > cur.comm_start_time then cur.comm_start_time else row.comm_start_time
  comm_end_time :=
    if row.comm_end_time < cur.comm_end_time then cur.comm_end_time else row.comm_end_time
  comm_size := if row.comm_size < cur.comm_size then cur.comm_size else row.comm_size

/-- Row `i` of the first worker, with the communication of all. -/
def readRow (all_workers_trace : Traces F) (i : Nat) : Option (Row F) := do
  let row ← (← all_workers_trace[0]?)[i]?
  let others ← all_workers_trace.tail.mapM (·[i]?)
  return others.foldl Row.widen row

/-- A turn of the loop, on row `i` of `size`, with the row before. -/
def parseTurn (all_workers_trace : Traces F) (size : Nat) (st : Row F × List DMLBatchTrace)
    (i : Nat) : Option (Row F × List DMLBatchTrace) := do
  let row ← readRow all_workers_trace i
  let traces := if 1 ≤ i then st.2 ++ [preBatch D i st.1 row.batch_start_time] else st.2
  return (row, if i = size - 1 then traces ++ [lastBatch D size row] else traces)

/-- `none` is a read outside of a vector. -/
def parseDmlBatchTraces (all_workers_trace : Traces F) : Option (List DMLBatchTrace) := do
  let size := (← all_workers_trace[0]?).length
  let st ← (List.range size).foldlM (parseTurn D all_workers_trace size)
    (⟨D.zero, D.zero, D.zero, 0⟩, [])
  return st.2

end Parse

/-! ## 2. Statement -/

/-- What the workers have in a column of row `i`. -/
def column {F α : Type} (field : Row F → α) (traces : Traces F) (i : Nat) : Set α :=
  {x | ∃ worker ∈ traces, ∃ row, worker[i]? = some row ∧ field row = x}

/-- The batches of the rows. -/
structure Tile {F : Type} [LinearOrder F] (D : Doubles F) (traces : Traces F) (n : Nat)
    (batches : List DMLBatchTrace) : Prop where
  length : batches.length = n
  batch : ∀ i b, batches[i]? = some b → b.batch = i + 1
  tile : ∀ i b next, batches[i]? = some b → batches[i + 1]? = some next →
    b.batch_end_time = next.batch_start_time
  start : ∀ i b, batches[i]? = some b → ∃ comm_start,
    IsLeast (column Row.comm_start_time traces i) comm_start ∧
      b.communication_start_time = D.nanoseconds comm_start
  finish : ∀ i b, batches[i]? = some b → ∃ comm_end,
    IsGreatest (column Row.comm_end_time traces i) comm_end ∧
      b.communication_end_time = D.nanoseconds comm_end
  size : ∀ i b, batches[i]? = some b →
    IsGreatest (column Row.comm_size traces i) b.communication_size

/-! ## 3. One row -/

section Row

variable {F α : Type} {D : Doubles F} {traces others : Traces F} {first : List (Row F)} {i n : Nat}
  {row : Row F} {rows : List (Row F)}

theorem exists_mapM (h : ∀ worker ∈ others, i < worker.length) :
    ∃ rows, others.mapM (·[i]?) = some rows ∧
      ∀ row, row ∈ rows ↔ ∃ worker ∈ others, worker[i]? = some row := by
  induction others with
  | nil => exact ⟨[], rfl, by simp⟩
  | cons worker others ih =>
    obtain ⟨hworker, hothers⟩ := forall_mem_cons.mp h
    obtain ⟨rows, hrows, hmem⟩ := ih hothers
    refine ⟨worker[i] :: rows, ?_, fun row => ?_⟩
    · rw [mapM_cons, hrows, getElem?_eq_getElem hworker]
      rfl
    · rw [mem_cons, hmem, exists_mem_cons_iff, getElem?_eq_getElem hworker,
        Option.some.injEq, eq_comm]

theorem column_eq (field : Row F → α)
    (h : ∀ row, row ∈ rows ↔ ∃ worker ∈ traces, worker[i]? = some row) :
    column field traces i = {x | x ∈ rows.map field} := by
  ext x
  constructor
  · rintro ⟨worker, hworker, row, hrow, rfl⟩
    exact mem_map_of_mem ((h row).mpr ⟨worker, hworker, hrow⟩)
  · intro hx
    obtain ⟨row, hrow, rfl⟩ := mem_map.mp hx
    obtain ⟨worker, hworker, hrow⟩ := (h row).mp hrow
    exact ⟨worker, hworker, row, hrow, rfl⟩

theorem isStrictTotal_lt {β : Type} [LinearOrder β] : IsStrictTotal fun a b : β => a < b where
  irrefl := lt_irrefl
  trans _ _ _ := lt_trans
  total _ _ hab hba := le_antisymm (not_lt.mp hba) (not_lt.mp hab)

theorem isGreatest_scan {β : Type} [LinearOrder β] (x : β) (l : List β) :
    IsGreatest {y | y ∈ x :: l} (scan (fun a b => a < b) x l) :=
  have hscan := scan_spec isStrictTotal_lt x l
  ⟨hscan.1, fun y hy => not_lt.mp (hscan.2 y hy)⟩

theorem isLeast_scan {β : Type} [LinearOrder β] (x : β) (l : List β) :
    IsLeast {y | y ∈ x :: l} (scan (fun a b => a > b) x l) :=
  have hscan := scan_spec (isStrictTotal_lt (β := β)).flip x l
  ⟨hscan.1, fun y hy => not_lt.mp (hscan.2 y hy)⟩

variable [LinearOrder F]

theorem foldl_widen (row : Row F) (rows : List (Row F)) :
    rows.foldl Row.widen row = ⟨row.batch_start_time,
      scan (fun a b => a > b) row.comm_start_time (rows.map Row.comm_start_time),
      scan (fun a b => a < b) row.comm_end_time (rows.map Row.comm_end_time),
      scan (fun a b => a < b) row.comm_size (rows.map Row.comm_size)⟩ := by
  induction rows generalizing row with
  | nil => rfl
  | cons cur rows ih => exact ih (row.widen cur)

/-- The communication is that of all workers in row `i`. -/
structure Covers (traces : Traces F) (i : Nat) (row : Row F) : Prop where
  start : IsLeast (column Row.comm_start_time traces i) row.comm_start_time
  finish : IsGreatest (column Row.comm_end_time traces i) row.comm_end_time
  size : IsGreatest (column Row.comm_size traces i) row.comm_size

theorem readRow_ok (h : ∀ worker ∈ first :: others, worker.length = n) (hi : i < n) :
    ∃ row, readRow (first :: others) i = some row ∧ Covers (first :: others) i row := by
  obtain ⟨hfirst, hothers⟩ := forall_mem_cons.mp h
  obtain ⟨rows, hrows, hmem⟩ := exists_mapM fun worker hworker =>
    hi.trans_eq (hothers worker hworker).symm
  have hfirst := getElem?_eq_getElem (hi.trans_eq hfirst.symm)
  refine ⟨rows.foldl Row.widen first[i], ?_, ?_⟩
  · unfold readRow
    rw [getElem?_cons_zero, tail_cons, hrows]
    show (first[i]? >>= _) = _
    rw [hfirst]
    rfl
  · have hall (row : Row F) : row ∈ first[i] :: rows ↔
        ∃ worker ∈ first :: others, worker[i]? = some row := by
      rw [mem_cons, hmem, exists_mem_cons_iff, hfirst, Option.some.injEq, eq_comm]
    rw [foldl_widen]
    refine ⟨?_, ?_, ?_⟩
    · rw [column_eq _ hall]
      exact isLeast_scan _ _
    · rw [column_eq _ hall]
      exact isGreatest_scan _ _
    · rw [column_eq _ hall]
      exact isGreatest_scan _ _

theorem exists_rows (D : Doubles F) (h : ∀ worker ∈ first :: others, worker.length = n) :
    ∃ rows : Nat → Row F, ∀ i < n, readRow (first :: others) i = some (rows i) ∧
      Covers (first :: others) i (rows i) := by
  have hrow (i : Nat) : ∃ row : Row F, i < n →
      readRow (first :: others) i = some row ∧ Covers (first :: others) i row := by
    by_cases hi : i < n
    · obtain ⟨row, hrow⟩ := readRow_ok h hi
      exact ⟨row, fun _ => hrow⟩
    · exact ⟨⟨D.zero, D.zero, D.zero, 0⟩, fun hlt => absurd hlt hi⟩
  exact Classical.skolem.mp hrow

end Row

/-! ## 4. The loop -/

section Loop

variable {F : Type} {D : Doubles F} {traces : Traces F} {rows : Nat → Row F} {n k i : Nat}
  {b : DMLBatchTrace}

/-- The batches after `k` turns. -/
def batchesAfter (D : Doubles F) (rows : Nat → Row F) (n : Nat) : Nat → List DMLBatchTrace
  | 0 => []
  | k + 1 =>
    (List.range k).map (fun i => preBatch D (i + 1) (rows i) (rows (i + 1)).batch_start_time) ++
      if k + 1 = n then [lastBatch D n (rows k)] else []

/-- The row that is kept after `k` turns. -/
def rowAfter (D : Doubles F) (rows : Nat → Row F) : Nat → Row F
  | 0 => ⟨D.zero, D.zero, D.zero, 0⟩
  | k + 1 => rows k

theorem length_batchesAfter (D : Doubles F) (rows : Nat → Row F) (n : Nat) :
    (batchesAfter D rows n n).length = n := by
  cases n with
  | zero => rfl
  | succ n => simp [batchesAfter]

theorem batchesAfter_cases (hb : (batchesAfter D rows n n)[i]? = some b) :
    i < n ∧ b = if i + 1 = n then lastBatch D n (rows i)
      else preBatch D (i + 1) (rows i) (rows (i + 1)).batch_start_time := by
  have hi : i < n := by
    rw [← length_batchesAfter D rows n]
    exact (List.getElem?_eq_some_iff.mp hb).1
  refine ⟨hi, ?_⟩
  cases n with
  | zero => cases hi
  | succ n =>
    rw [batchesAfter, if_pos rfl] at hb
    split
    · next heq =>
      obtain rfl := Nat.succ.inj heq
      rw [getElem?_append_right (by simp), length_map, length_range, Nat.sub_self] at hb
      exact (Option.some.inj hb).symm
    · rw [getElem?_append_left (by simp; omega), getElem?_map, getElem?_range (by omega)] at hb
      exact (Option.some.inj hb).symm

variable [LinearOrder F]

/-- A turn emits the batch of the previous row, and after the last row its own. -/
theorem parseTurn_eq (hrow : readRow traces k = some (rows k)) (hk : k < n) :
    parseTurn D traces n (rowAfter D rows k, batchesAfter D rows n k) k =
      some (rowAfter D rows (k + 1), batchesAfter D rows n (k + 1)) := by
  unfold parseTurn
  rw [hrow]
  have hlast : k = n - 1 ↔ k + 1 = n := by omega
  show some _ = some _
  refine congrArg some (Prod.ext rfl ?_)
  cases k with
  | zero =>
    simp only [batchesAfter, hlast]
    split <;> rfl
  | succ k =>
    have hnot : k + 1 ≠ n := by omega
    simp only [batchesAfter, hlast, hnot, if_false, Nat.le_add_left, if_true, append_nil,
      range_succ, map_append, map_cons, map_nil]
    split
    · rfl
    · exact (append_nil _).symm

theorem foldlM_parseTurn (hrows : ∀ i < n, readRow traces i = some (rows i)) (hk : k ≤ n) :
    (List.range k).foldlM (parseTurn D traces n) (rowAfter D rows 0, batchesAfter D rows n 0) =
      some (rowAfter D rows k, batchesAfter D rows n k) := by
  induction k with
  | zero => rfl
  | succ k ih =>
    rw [range_succ, foldlM_append, ih (Nat.le_of_succ_le hk)]
    show (parseTurn D traces n _ k >>= some) = _
    rw [parseTurn_eq (hrows k hk) hk]
    rfl

theorem tile_batchesAfter (hrows : ∀ i < n, Covers traces i (rows i)) :
    Tile D traces n (batchesAfter D rows n n) where
  length := length_batchesAfter D rows n
  batch i b hb := by
    obtain ⟨-, rfl⟩ := batchesAfter_cases hb
    split
    · next heq => exact heq.symm
    · rfl
  tile i b next hb hnext := by
    obtain ⟨hi, rfl⟩ := batchesAfter_cases hb
    obtain ⟨hi', rfl⟩ := batchesAfter_cases hnext
    rw [if_neg (by omega)]
    split <;> rfl
  start i b hb := by
    obtain ⟨hi, rfl⟩ := batchesAfter_cases hb
    refine ⟨_, (hrows i hi).start, ?_⟩
    split <;> rfl
  finish i b hb := by
    obtain ⟨hi, rfl⟩ := batchesAfter_cases hb
    refine ⟨_, (hrows i hi).finish, ?_⟩
    split <;> rfl
  size i b hb := by
    obtain ⟨hi, rfl⟩ := batchesAfter_cases hb
    split
    · exact (hrows i hi).size
    · exact (hrows i hi).size

end Loop

/-- The batches of at least one worker tile the run. -/
theorem batches_tile {F : Type} [LinearOrder F] (D : Doubles F) (first : List (Row F))
    (others : Traces F) (n : Nat) (h : ∀ worker ∈ first :: others, worker.length = n) :
    ∃ batches, parseDmlBatchTraces D (first :: others) = some batches ∧
      Tile D (first :: others) n batches := by
  obtain ⟨rows, hrows⟩ := exists_rows D h
  refine ⟨batchesAfter D rows n n, ?_, tile_batchesAfter fun i hi => (hrows i hi).2⟩
  unfold parseDmlBatchTraces
  rw [List.getElem?_cons_zero]
  show ((List.range first.length).foldlM (parseTurn D _ first.length) _ >>= _) = _
  rw [h first List.mem_cons_self]
  show (List.foldlM _ (rowAfter D rows 0, batchesAfter D rows n 0) _ >>= _) = _
  rw [foldlM_parseTurn (fun i hi => (hrows i hi).1) le_rfl]
  rfl

/-- Times in units of 100 ms. -/
def tenths : Doubles Int where
  zero := 0
  nanoseconds x := x * 100000000
  later x := x + 1

/-- Two workers with two rows. -/
def twoWorkers : Traces Int :=
  [[⟨0, 3, 5, 8⟩, ⟨6, 7, 9, 8⟩], [⟨0, 2, 4, 8⟩, ⟨6, 8, 9, 4⟩]]

theorem batches_tile_two :
    parseDmlBatchTraces tenths twoWorkers = some
      [⟨1, 0, 600000000, 200000000, 500000000, 8⟩,
        ⟨2, 600000000, 1000000000, 700000000, 900000000, 8⟩] ∧
    ∃ batches, parseDmlBatchTraces tenths twoWorkers = some batches ∧
      Tile tenths twoWorkers 2 batches :=
  ⟨by decide, batches_tile tenths _ _ 2 (by decide)⟩

/-- Without a worker the first one is read outside of the vector. -/
theorem no_worker : (∀ worker ∈ ([] : Traces Int), worker.length = 0) ∧
    ¬∃ batches, parseDmlBatchTraces tenths [] = some batches ∧ Tile tenths [] 0 batches :=
  ⟨nofun, by
    rintro ⟨batches, hparse, -⟩
    cases hparse⟩

end MoeJit.DML
