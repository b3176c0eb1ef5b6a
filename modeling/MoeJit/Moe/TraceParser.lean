import MoeJit.Lib.Bytes
import MoeJit.Lib.Words
import Mathlib.Algebra.Order.BigOperators.Group.List
import Mathlib.Data.List.TakeWhile

/-!
# MoE traces

The part of `MoeTraceParser::LoadTraces` that reads the trace of each rank: a file of lines, each a
JSON object with the events of a batch. An exception in a line goes to a handler that continues with
the next line.

`readFile_iff`: a line that throws contributes no events exactly if no event of communication stands
before the first one that throws. The handler does not take back what the line has pushed
(`readFile_keeps_half`).

Seconds (`double`) are exact rationals. The files come in the order of their names.
-/

namespace MoeJit.TraceParser

open Bytes Words List

/-! ## 1. JSON values -/

inductive Json
  | null
  | boolean (b : Bool)
  | numberInteger (i : Int)
  | numberUnsigned (n : Nat)
  | numberFloat (x : Rat)
  | string (s : String)
  | array (items : List Json)
  | object (members : List (String × Json))

/-- What is not of the parser itself: `json::parse`, which throws or returns a value, and the
conversions of a `double` to `int` and to `size_t`. -/
structure Platform where
  parse : List Byte → Option Json
  floatToInt : Rat → Int
  floatToSize : Rat → Nat

namespace Json

/-- The value of a member, for `contains` and `operator[]`. -/
def find (key : String) : Json → Option Json
  | object members => (members.find? fun kv => kv.1 = key).map (·.2)
  | _ => none

/-- What a loop over a value goes through. -/
def elements : Json → List Json
  | null => []
  | array items => items
  | object members => members.map (·.2)
  | j => [j]

/-- `items()`: the elements with their keys. -/
def items : Json → List (String × Json)
  | null => []
  | array items => items.zipIdx.map fun p => (toString p.2, p.1)
  | object members => members
  | j => [("", j)]

/-- `get<int>()`. -/
def getInt (p : Platform) : Json → Option Int
  | numberUnsigned n => some (i32 n)
  | numberInteger i => some (i.bmod (2 ^ 32))
  | numberFloat x => some (p.floatToInt x)
  | boolean b => some (if b then 1 else 0)
  | _ => none

/-- `get<size_t>()`. -/
def getSize (p : Platform) : Json → Option Nat
  | numberUnsigned n => some (u64 n)
  | numberInteger i => some (i % 2 ^ 64).toNat
  | numberFloat x => some (p.floatToSize x)
  | _ => none

/-- `get<double>()`. -/
def getDouble : Json → Option Rat
  | numberUnsigned n => some n
  | numberInteger i => some i
  | numberFloat x => some x
  | _ => none

def getString : Json → Option String
  | string s => some s
  | _ => none

/-- `value(key, default_value)`, which throws for what is no object. -/
def value {α : Type} (get : Json → Option α) (key : String) (default_value : α) : Json → Option α
  | object members =>
    match find key (object members) with
    | none => some default_value
    | some v => get v
  | _ => none

end Json

def isSpace (c : Char) : Bool :=
  c = ' ' || c = '\t' || c = '\n' || c = '\r' || c.toNat = 11 || c.toNat = 12

/-- The sign of a number and what follows it. -/
def splitSign : List Char → Bool × List Char
  | '-' :: rest => (true, rest)
  | '+' :: rest => (false, rest)
  | rest => (false, rest)

/-- `std::stoi`: what follows the digits does not matter. -/
def stoi (s : String) : Option Int :=
  let (negative, rest) := splitSign (s.toList.dropWhile isSpace)
  let digits := rest.takeWhile Char.isDigit
  if digits = [] then none
  else
    let n := digits.foldl (fun n c => 10 * n + (c.toNat - '0'.toNat)) 0
    let val : Int := if negative then -n else n
    if -2 ^ 31 ≤ val ∧ val < 2 ^ 31 then some val else none

/-! ## 2. The read loop -/

/-- `MoeRawEvent`: an event of communication, as one rank sees it. -/
structure MoeRawEvent where
  rankId : Nat
  batchId : Int
  op : String
  startTime : Rat
  endTime : Rat
  /-- target -> bytes -/
  sendBytes : Std.TreeMap Int Nat
  /-- source -> bytes (expected) -/
  recvBytes : Std.TreeMap Int Nat

section

variable (p : Platform)

/-- The loop over a map from rank keys to bytes. -/
def readBytes (items : List (String × Json)) : Option (Std.TreeMap Int Nat) :=
  items.foldlM (fun bytes el => do
    let size ← el.2.getSize p
    let key ← stoi el.1
    return bytes.insert key size) ∅

/-- The bytes under a key, which may be absent. -/
def readFlows (key : String) (ev_json : Json) : Option (Std.TreeMap Int Nat) :=
  match ev_json.find key with
  | none => some ∅
  | some flows => readBytes p flows.items

/-- The body of the loop over the events: no value where it throws, and no event for a
`GATE_END`. -/
def readEvent (r : Nat) (batch_id : Int) (ev_json : Json) : Option (Option MoeRawEvent) := do
  let op ← ev_json.value Json.getString "op" ""
  if op = "GATE_END" then return none
  let startTime ← ev_json.value Json.getDouble "start_time_s" 0
  let endTime ← ev_json.value Json.getDouble "end_time_s" 0
  let sendBytes ← readFlows p "send_bytes_per_rank" ev_json
  let recvBytes ← readFlows p "recv_bytes_per_rank" ev_json
  return some { rankId := r, batchId := batch_id, op, startTime, endTime, sendBytes, recvBytes }

/-- The loop over the events of a line, up to an exception. -/
def pushEvents (r : Nat) (batch_id : Int) : List Json → List MoeRawEvent → List MoeRawEvent
  | [], events => events
  | ev_json :: rest, events =>
    match readEvent p r batch_id ev_json with
    | none => events
    | some none => pushEvents r batch_id rest events
    | some (some ev) => pushEvents r batch_id rest (events ++ [ev])

/-- The batch and the events of a line, if nothing throws before the events. -/
def lineEvents (line : List Byte) : Option (Int × List Json) := do
  let j ← p.parse line
  let batch_id ← j.value (Json.getInt p) "batch_id" (-1)
  return (batch_id, ((j.find "ep_events").map Json.elements).getD [])

/-- The body of the read loop. -/
def readLine (r : Nat) (events : List MoeRawEvent) (line : List Byte) : List MoeRawEvent :=
  if line = [] then events
  else
    match lineEvents p line with
    | none => events
    | some (batch_id, ep_events) => pushEvents p r batch_id ep_events events

/-- `std::getline`, until it fails; `line` has been read of the current line. -/
def getlines (line : List Byte) : List Byte → List (List Byte)
  | [] => if line = [] then [] else [line]
  | b :: rest => if b = 10 then line :: getlines [] rest else getlines (line ++ [b]) rest

/-- `all_rank_events[r]`. -/
def readFile (r : Nat) (infile : List Byte) : List MoeRawEvent :=
  (getlines [] infile).foldl (readLine p r) []

/-! ## 3. Statement -/

/-- All events of communication of a line, in order. It has no value where something throws. -/
def wholeLine (r : Nat) (line : List Byte) : Option (List MoeRawEvent) :=
  if line = [] then some []
  else do
    let (batch_id, ep_events) ← lineEvents p line
    (ep_events.mapM (readEvent p r batch_id)).map (·.filterMap id)

/-- What a file contributes if a line counts whole or not at all. -/
def wholeLines (r : Nat) (infile : List Byte) : List MoeRawEvent :=
  (getlines [] infile).flatMap fun line => (wholeLine p r line).getD []

/-- Where an event throws, the events before the first such are `GATE_END`. -/
def ThrowsFirst (r : Nat) (line : List Byte) : Prop :=
  line ≠ [] → ∀ batch_id ep_events, lineEvents p line = some (batch_id, ep_events) →
    (∃ ev ∈ ep_events, readEvent p r batch_id ev = none) →
    ∀ ev ∈ ep_events.takeWhile fun ev => (readEvent p r batch_id ev).isSome,
      readEvent p r batch_id ev = some none

variable {p}

/-! ## 4. What a line contributes -/

/-- What the loop over the events pushes. -/
def pushed (p : Platform) (r : Nat) (batch_id : Int) (ep_events : List Json) : List MoeRawEvent :=
  (ep_events.takeWhile fun ev => (readEvent p r batch_id ev).isSome).filterMap fun ev =>
    (readEvent p r batch_id ev).join

def pushedLine (p : Platform) (r : Nat) (line : List Byte) : List MoeRawEvent :=
  if line = [] then []
  else ((lineEvents p line).map fun batch => pushed p r batch.1 batch.2).getD []

variable {r : Nat} {batch_id : Int} {ep_events : List Json} {line infile : List Byte}

theorem pushEvents_eq (events : List MoeRawEvent) :
    pushEvents p r batch_id ep_events events = events ++ pushed p r batch_id ep_events := by
  induction ep_events generalizing events with
  | nil => exact (append_nil events).symm
  | cons ev_json rest ih =>
    rw [pushEvents, pushed]
    cases hev : readEvent p r batch_id ev_json with
    | none => simp [hev]
    | some ev =>
      cases ev with
      | none => simp [hev, ih, pushed]
      | some ev => simp [hev, ih, pushed]

theorem readLine_eq (events : List MoeRawEvent) :
    readLine p r events line = events ++ pushedLine p r line := by
  rw [readLine, pushedLine]
  split
  · exact (append_nil events).symm
  · cases lineEvents p line with
    | none => exact (append_nil events).symm
    | some batch => exact pushEvents_eq events

theorem readFile_eq : readFile p r infile = (getlines [] infile).flatMap (pushedLine p r) := by
  have hfold : ∀ (lines : List (List Byte)) (events : List MoeRawEvent),
      lines.foldl (readLine p r) events = events ++ lines.flatMap (pushedLine p r) := by
    intro lines
    induction lines with
    | nil => exact fun events => (append_nil events).symm
    | cons line lines ih =>
      intro events
      rw [foldl_cons, ih, readLine_eq, append_assoc, flatMap_cons]
  exact hfold _ []

theorem mapM_eq_none {f : Json → Option (Option MoeRawEvent)} (h : ∃ ev ∈ ep_events, f ev = none) :
    ep_events.mapM f = none := by
  induction ep_events with
  | nil =>
    obtain ⟨ev, hev, -⟩ := h
    cases hev
  | cons ev rest ih =>
    rw [mapM_cons]
    cases hev : f ev with
    | none => rfl
    | some x =>
      obtain ⟨ev', hmem, hthrows⟩ := h
      rcases mem_cons.mp hmem with rfl | hrest
      · rw [hev] at hthrows
        cases hthrows
      · simp [ih ⟨ev', hrest, hthrows⟩]

theorem mapM_eq_some {f : Json → Option (Option MoeRawEvent)}
    (h : ∀ ev ∈ ep_events, (f ev).isSome = true) :
    ep_events.mapM f = some (ep_events.map fun ev => (f ev).join) := by
  induction ep_events with
  | nil => rfl
  | cons ev rest ih =>
    obtain ⟨hev, hrest⟩ := forall_mem_cons.mp h
    obtain ⟨x, hx⟩ := Option.isSome_iff_exists.mp hev
    rw [mapM_cons, ih hrest, hx]
    simp [hx]

theorem pushed_of_isSome (h : ∀ ev ∈ ep_events, (readEvent p r batch_id ev).isSome = true) :
    (ep_events.mapM (readEvent p r batch_id)).map (·.filterMap id) =
      some (pushed p r batch_id ep_events) := by
  rw [mapM_eq_some h, pushed, takeWhile_eq_self_iff.mpr h, Option.map_some, filterMap_map]
  rfl

theorem wholeLine_eq (hline : line ≠ []) (h : lineEvents p line = some (batch_id, ep_events)) :
    wholeLine p r line = (ep_events.mapM (readEvent p r batch_id)).map (·.filterMap id) := by
  rw [wholeLine, if_neg hline, h]
  rfl

theorem wholeLine_cases :
    wholeLine p r line = some (pushedLine p r line) ∨ wholeLine p r line = none := by
  by_cases hline : line = []
  · simp [wholeLine, pushedLine, hline]
  · cases hevents : lineEvents p line with
    | none => exact .inr (by simp [wholeLine, hline, hevents])
    | some batch =>
      rw [wholeLine_eq hline hevents]
      by_cases hall : ∀ ev ∈ batch.2, (readEvent p r batch.1 ev).isSome = true
      · left
        rw [pushed_of_isSome hall, pushedLine, if_neg hline, hevents]
        rfl
      · right
        push Not at hall
        obtain ⟨ev, hmem, hno⟩ := hall
        rw [mapM_eq_none ⟨ev, hmem, by simpa using hno⟩]
        rfl

/-- Nothing is pushed where all events before the exception are `GATE_END`. -/
theorem pushed_eq_nil : pushed p r batch_id ep_events = [] ↔
    ∀ ev ∈ ep_events.takeWhile fun ev => (readEvent p r batch_id ev).isSome,
      readEvent p r batch_id ev = some none := by
  rw [pushed, filterMap_eq_nil_iff]
  refine forall₂_congr fun ev hev => ?_
  have hsome : (readEvent p r batch_id ev).isSome = true :=
    mem_takeWhile_imp (p := fun ev => (readEvent p r batch_id ev).isSome) hev
  obtain ⟨x, hx⟩ := Option.isSome_iff_exists.mp hsome
  rw [hx, Option.join_some, Option.some_inj]

/-- A line contributes what it should if it has pushed nothing when it throws. -/
theorem whole_iff : (wholeLine p r line).getD [] = pushedLine p r line ↔ ThrowsFirst p r line := by
  by_cases hline : line = []
  · rw [wholeLine, pushedLine, if_pos hline, if_pos hline]
    exact iff_of_true rfl fun h => absurd hline h
  cases hevents : lineEvents p line with
  | none =>
    have hnone : wholeLine p r line = none := by
      rw [wholeLine, if_neg hline, hevents]
      rfl
    rw [hnone, pushedLine, if_neg hline, hevents]
    exact iff_of_true rfl fun _ batch_id ep_events h => by
      rw [hevents] at h
      cases h
  | some batch =>
    obtain ⟨batch_id, ep_events⟩ := batch
    have hpushed : pushedLine p r line = pushed p r batch_id ep_events := by
      rw [pushedLine, if_neg hline, hevents]
      rfl
    have hfirst : ThrowsFirst p r line ↔ ((∃ ev ∈ ep_events, readEvent p r batch_id ev = none) →
        pushed p r batch_id ep_events = []) := by
      rw [pushed_eq_nil]
      refine ⟨fun h => h hline batch_id ep_events hevents, fun h _ batch_id' ep_events' heq => ?_⟩
      obtain ⟨rfl, rfl⟩ := Prod.mk.inj (Option.some.inj (hevents.symm.trans heq))
      exact h
    rw [wholeLine_eq hline hevents, hpushed, hfirst]
    by_cases hthrows : ∃ ev ∈ ep_events, readEvent p r batch_id ev = none
    · rw [mapM_eq_none hthrows, Option.map_none, Option.getD_none]
      exact eq_comm.trans ⟨fun h _ => h, fun h => h hthrows⟩
    · have hall : ∀ ev ∈ ep_events, (readEvent p r batch_id ev).isSome = true := fun ev hev =>
        Option.isSome_iff_ne_none.mpr fun hno => hthrows ⟨ev, hev, hno⟩
      rw [pushed_of_isSome hall, Option.getD_some]
      exact iff_of_true rfl fun h => absurd h hthrows

/-- Lists that are put together from pieces, of which some are left out. -/
theorem flatMap_eq_iff {α β : Type} {l : List α} {f g : α → List β}
    (h : ∀ x ∈ l, g x = f x ∨ g x = []) : l.flatMap f = l.flatMap g ↔ ∀ x ∈ l, f x = g x := by
  refine ⟨fun heq => ?_, fun heq => flatMap_congr heq⟩
  induction l with
  | nil => exact fun x hx => absurd hx not_mem_nil
  | cons x l ih =>
    obtain ⟨hx, hrest⟩ := forall_mem_cons.mp h
    -- no piece of the right side is longer
    have hle : ∀ y ∈ l, (g y).length ≤ (f y).length := fun y hy => by
      rcases hrest y hy with hsame | hnone
      · rw [hsame]
      · rw [hnone]
        exact Nat.zero_le _
    rw [flatMap_cons, flatMap_cons] at heq
    rcases hx with hsame | hnone
    · rw [hsame] at heq
      exact forall_mem_cons.mpr ⟨hsame.symm, ih hrest (append_cancel_left heq)⟩
    · rw [hnone, nil_append] at heq
      have hlen := congrArg List.length heq
      have hsum := sum_le_sum hle
      rw [length_append, length_flatMap, length_flatMap] at hlen
      have hx : f x = [] := length_eq_zero_iff.mp (by omega)
      rw [hx, nil_append] at heq
      exact forall_mem_cons.mpr ⟨hx.trans hnone.symm, ih hrest heq⟩

/-- A file contributes its lines whole or not at all if and only if no line has pushed an event
when it throws. -/
theorem readFile_iff (p : Platform) (r : Nat) (infile : List Byte) :
    readFile p r infile = wholeLines p r infile ↔
      ∀ line ∈ getlines [] infile, ThrowsFirst p r line := by
  have hpieces : ∀ line ∈ getlines [] infile, (wholeLine p r line).getD [] = pushedLine p r line ∨
      (wholeLine p r line).getD [] = [] := fun line _ => by
    rcases @wholeLine_cases p r line with h | h
    · exact .inl (by rw [h, Option.getD_some])
    · exact .inr (by rw [h, Option.getD_none])
  rw [readFile_eq, wholeLines, flatMap_eq_iff hpieces]
  exact forall₂_congr fun line _ => eq_comm.trans whole_iff

/-! ## 5. A line that throws in its second event -/

/-- The events of a line: a dispatch, and a combine with a rank key that is no number. -/
def tornEvents : List Json :=
  [.object [("op", .string "DISPATCH")],
   .object [("op", .string "COMBINE"),
    ("send_bytes_per_rank", .object [("x", .numberUnsigned 1)])]]

/-- The text of that line. -/
def tornLine : List Byte :=
  [123, 34, 101, 112, 95, 101, 118, 101, 110, 116, 115, 34, 58, 91, 123, 34, 111, 112, 34, 58, 34,
   68, 73, 83, 80, 65, 84, 67, 72, 34, 125, 44, 123, 34, 111, 112, 34, 58, 34, 67, 79, 77, 66, 73,
   78, 69, 34, 44, 34, 115, 101, 110, 100, 95, 98, 121, 116, 101, 115, 95, 112, 101, 114, 95, 114,
   97, 110, 107, 34, 58, 123, 34, 120, 34, 58, 49, 125, 125, 93, 125]

def tornPlatform : Platform where
  parse line := if line = tornLine then some (.object [("ep_events", .array tornEvents)]) else none
  floatToInt x := x.num.tdiv x.den
  floatToSize x := (x.num.tdiv x.den).toNat

/-- The dispatch stays although the line throws. -/
theorem readFile_keeps_half :
    readFile tornPlatform 0 tornLine ≠ wholeLines tornPlatform 0 tornLine := by
  have hkept : (readFile tornPlatform 0 tornLine).length = 1 := by decide +kernel
  have hnone : (wholeLines tornPlatform 0 tornLine).length = 0 := by decide +kernel
  intro heq
  rw [heq, hnone] at hkept
  cases hkept

end

end MoeJit.TraceParser
