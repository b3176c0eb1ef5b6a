import MoeJit.Lib.GuardedRun
import Mathlib.Data.List.Perm.Basic
import Mathlib.Data.List.Nodup
import Mathlib.Data.List.Range

/-!
# Completion of a coroutine operation

`CoroutineOperation` and its promise: the flag `terminated`, the outcome, and the
continuations that `complete` calls. The coroutine is resumed by whoever waits for
it and by the loop of `terminate`, and continuations run in the middle of both, so
the state has a stack of the pieces of user code that are under way, and an act is
what the piece on top does next. What the pieces are is left open: the body of the
coroutine, a continuation and the code outside may do anything at each turn.

`exactly_once_iff_careful`: in which runs the completion is exactly-once.
`doubled_and_lost`: what a continuation that throws does to the others.

Operations are alive as long as something is called on them, so that the coroutine
always stays suspended at its end and reference counts play no part. What continuations
write through the references they are given is theirs and no step of the operation.
-/

namespace MoeJit.CoroutineOperation

open List

/-! ## 1. The promise and the coroutine -/

inductive Outcome (R E : Type)
  | result (r : R)
  | exception (e : E)
  deriving DecidableEq

/-- Continuations go by the number of their registration. -/
structure Promise (R E : Type) where
  terminated : Bool := false
  result : Option R := none
  exception : Option E := none
  continuations : List Nat := []

/-- Who called `complete`. -/
inductive Caller
  | returnValue
  | unhandledException

/-- Where the coroutine is. In `complete` a continuation runs and `rest` comes after
it; `final` is the final suspend point, the one at which `handle.done()` is true. -/
inductive Point
  | suspended
  | body
  | complete (caller : Caller) (rest : List Nat)
  | final

/-- What control returns to when the coroutine suspends: the code that created or
resumed it, or the loop of `terminate`. -/
inductive Resumer
  | caller
  | terminate

/-- User code under way: the coroutine, with its continuations, or a continuation
that `onComplete` called at once. -/
inductive Frame
  | coroutine (resumer : Resumer)
  | continuation

/-- What has happened: a call of `terminate`, `return_value` or `unhandled_exception`
with its outcome, an assignment to `result` or `exception`, and the call of a
continuation. -/
inductive Event (R E : Type)
  | attempt (o : Outcome R E)
  | set (o : Outcome R E)
  | invoke (i : Nat)

/-- The operation. It is created with its body running. The stack has its top first
and nothing for the code outside; `undefined` says that a coroutine was resumed that
was not suspended. -/
structure State (R E : Type) where
  promise : Promise R E := {}
  point : Point := .body
  stack : List Frame := [.coroutine .caller]
  registered : Nat := 0
  log : List (Event R E) := []
  undefined : Bool := false

variable {R E : Type}

namespace State

/-- `handle.done()`. -/
def handleDone (s : State R E) : Bool :=
  match s.point with
  | .final => true
  | _ => false

def done (s : State R E) : Bool := s.handleDone || s.promise.terminated

def attempt (s : State R E) (o : Outcome R E) : State R E :=
  { s with log := s.log ++ [.attempt o] }

def setTerminated (s : State R E) : State R E :=
  { s with promise := { s.promise with terminated := true } }

def setResult (s : State R E) (r : R) : State R E :=
  { s with
    promise := { s.promise with result := some r }
    log := s.log ++ [.set (.result r)] }

def setException (s : State R E) (e : E) : State R E :=
  { s with
    promise := { s.promise with exception := some e }
    log := s.log ++ [.set (.exception e)] }

/-- `Promise::terminate`, after which `none` says that the construction of the result
threw. -/
def promiseTerminate (s : State R E) (r : Option R) : State R E :=
  if s.promise.terminated then s
  else
    match r with
    | none => s.setTerminated
    | some r => s.setTerminated.setResult r

/-- `handle.resume()`. -/
def handleResume (s : State R E) (resumer : Resumer) : State R E :=
  match s.point with
  | .suspended => { s with point := .body, stack := .coroutine resumer :: s.stack }
  | _ => { s with undefined := true }

/-- `handle.resume()` returns. `terminate` resumes again until the coroutine is
done. -/
def returnTo (s : State R E) (resumer : Resumer) (below : List Frame) : State R E :=
  match resumer with
  | .caller => { s with stack := below }
  | .terminate => if s.handleDone then { s with stack := below } else { s with point := .body }

/-- `complete` from `rest` on, with what comes after it: the final suspend point. -/
def complete (s : State R E) (caller : Caller) (resumer : Resumer) (below : List Frame)
    (rest : List Nat) : State R E :=
  match rest with
  | [] =>
    { s with
      promise := { s.promise with continuations := [] }
      point := .final }.returnTo resumer below
  | i :: rest => { s with point := .complete caller rest, log := s.log ++ [.invoke i] }

/-- `return_value`. -/
def returnValue (s : State R E) (resumer : Resumer) (below : List Frame) (r : R) : State R E :=
  let s := s.attempt (.result r)
  let s := if s.promise.terminated then s else s.setResult r
  s.setTerminated.complete .returnValue resumer below s.promise.continuations

/-- `unhandled_exception`. -/
def unhandledException (s : State R E) (resumer : Resumer) (below : List Frame) (e : E) :
    State R E :=
  let s := s.attempt (.exception e)
  let s := if s.promise.terminated then s else s.setException e
  s.setTerminated.complete .unhandledException resumer below s.promise.continuations

end State

/-! ## 2. Calls and acts -/

/-- Calls on the operation. In `terminate`, `none` stands for arguments that the
result cannot be constructed from without an exception. `handleResume` is the
continuation `h.resume()` of an awaitable, called by another operation that the
coroutine waits for. -/
inductive Call (R : Type)
  | onComplete
  | resume
  | terminate (r : Option R)
  | result
  | handleResume

namespace State

/-- `onComplete`. -/
def onComplete (s : State R E) : State R E :=
  if s.done then
    { s with
      registered := s.registered + 1
      log := s.log ++ [.invoke s.registered]
      stack := .continuation :: s.stack }
  else
    { s with
      registered := s.registered + 1
      promise := { s.promise with continuations := s.promise.continuations ++ [s.registered] } }

/-- `resume`. -/
def resume (s : State R E) : State R E := if s.done then s else s.handleResume .caller

/-- `terminate`. An exception of the construction leaves it before the loop. -/
def terminate (s : State R E) (r : Option R) : State R E :=
  match r with
  | none => if s.done then s else s.promiseTerminate none
  | some r =>
    let s := s.attempt (.result r)
    if s.done then s else (s.promiseTerminate (some r)).handleResume .terminate

/-- `result()`, which throws the exception by taking it out of the promise. -/
def takeException (s : State R E) : State R E :=
  { s with promise := { s.promise with exception := none } }

def call (s : State R E) : Call R → State R E
  | .onComplete => s.onComplete
  | .resume => s.resume
  | .terminate r => s.terminate r
  | .result => s.takeException
  | .handleResume => s.handleResume .caller

end State

/-- What the code on top does. `ret` is the return of a continuation. -/
inductive Act (R E : Type)
  | call (c : Call R)
  | suspend
  | coReturn (r : R)
  | ret
  | throw (e : E)

namespace State

/-- The coroutine is on top. An exception of a continuation leaves `complete`: from
`return_value` it is the body of the coroutine that has thrown, from
`unhandled_exception` it leaves the coroutine, which then counts as done. -/
def coroutineAct (s : State R E) (resumer : Resumer) (below : List Frame) (a : Act R E) :
    State R E :=
  match s.point, a with
  | .body, .suspend => { s with point := .suspended }.returnTo resumer below
  | .body, .coReturn r => s.returnValue resumer below r
  | .body, .throw e => s.unhandledException resumer below e
  | .complete caller rest, .ret => s.complete caller resumer below rest
  | .complete .returnValue _, .throw e => s.unhandledException resumer below e
  | .complete .unhandledException _, .throw _ => { s with point := .final, stack := below }
  | _, _ => s

/-- What the code on top does besides calls. What it cannot do changes nothing. -/
def turn (s : State R E) (a : Act R E) : State R E :=
  match s.stack, a with
  | .coroutine resumer :: below, a => s.coroutineAct resumer below a
  | .continuation :: below, .ret => { s with stack := below }
  | .continuation :: below, .throw _ => { s with stack := below }
  | _, _ => s

def step (s : State R E) (a : Act R E) : State R E :=
  match a with
  | .call c => s.call c
  | a => s.turn a

end State

def run (acts : List (Act R E)) : State R E := acts.foldl State.step {}

/-! ## 3. Exactly once -/

@[simp] def Event.attempt? : Event R E → Option (Outcome R E)
  | .attempt o => some o
  | _ => none

@[simp] def Event.set? : Event R E → Option (Outcome R E)
  | .set o => some o
  | _ => none

@[simp] def Event.invoke? : Event R E → Option Nat
  | .invoke i => some i
  | _ => none

def attempts (log : List (Event R E)) : List (Outcome R E) := log.filterMap Event.attempt?

def sets (log : List (Event R E)) : List (Outcome R E) := log.filterMap Event.set?

def invoked (log : List (Event R E)) : List Nat := log.filterMap Event.invoke?

/-- Each call of a continuation comes after an assignment. -/
def AfterSet (log : List (Event R E)) : Prop :=
  ∀ pre i post, log = pre ++ .invoke i :: post → sets pre ≠ []

/-- The outcome is set once, by the first that tries; no continuation is called before
that, none twice, and none is left out when the operation is done and no code of it
under way. -/
structure ExactlyOnce (s : State R E) : Prop where
  defined : s.undefined = false
  set_once : (sets s.log).length ≤ 1
  first_wins : ∀ o ∈ sets s.log, (attempts s.log).head? = some o
  result : ∀ r, s.promise.result = some r ↔ .result r ∈ sets s.log
  exception : ∀ e, s.promise.exception = some e → .exception e ∈ sets s.log
  done_set : s.done = true → sets s.log ≠ []
  after_set : AfterSet s.log
  at_most_once : (invoked s.log).Nodup
  of_registered : ∀ i ∈ invoked s.log, i < s.registered
  all_invoked : s.stack = [] → s.done = true → ∀ i < s.registered, i ∈ invoked s.log

/-- What must not happen: that a continuation throws out of the loop of `complete`,
but for the last one when the loop handles an exception; that the result of
`terminate` cannot be constructed; that a coroutine is resumed by its own body or,
by its handle, when it has ended. -/
def Careful (s : State R E) : Act R E → Prop
  | .throw _ =>
    match s.stack, s.point with
    | .coroutine _ :: _, .complete .returnValue _ => False
    | .coroutine _ :: _, .complete .unhandledException rest => rest = []
    | _, _ => True
  | .call (.terminate none) => s.done = true
  | .call (.terminate (some _)) | .call .resume => s.point = .body → s.promise.terminated = true
  | .call .handleResume => s.point = .suspended
  | _ => True

/-! ## 4. The log -/

variable {rest : List Nat} {caller : Caller}

section Log

variable {log l : List (Event R E)} {e : Event R E}

@[simp] theorem attempts_nil : attempts ([] : List (Event R E)) = [] := rfl

@[simp] theorem sets_nil : sets ([] : List (Event R E)) = [] := rfl

@[simp] theorem invoked_nil : invoked ([] : List (Event R E)) = [] := rfl

@[simp] theorem attempts_cons : attempts (e :: l) = e.attempt?.toList ++ attempts l := by
  cases e <;> rfl

@[simp] theorem sets_cons : sets (e :: l) = e.set?.toList ++ sets l := by cases e <;> rfl

@[simp] theorem invoked_cons : invoked (e :: l) = e.invoke?.toList ++ invoked l := by
  cases e <;> rfl

@[simp] theorem attempts_append : attempts (log ++ l) = attempts log ++ attempts l :=
  filterMap_append

@[simp] theorem sets_append : sets (log ++ l) = sets log ++ sets l := filterMap_append

@[simp] theorem invoked_append : invoked (log ++ l) = invoked log ++ invoked l := filterMap_append

theorem AfterSet.concat (h : AfterSet log) (he : ∀ i, e = .invoke i → sets log ≠ []) :
    AfterSet (log ++ [e]) := by
  intro pre i post heq
  cases eq_nil_or_concat post with
  | inl hnil =>
    subst hnil
    obtain ⟨rfl, hlast⟩ := append_inj' heq rfl
    exact he i (singleton_inj.mp hlast)
  | inr hconcat =>
    obtain ⟨post, x, rfl⟩ := hconcat
    rw [concat_eq_append, ← cons_append, ← append_assoc] at heq
    exact h pre i post (append_inj' heq rfl).1

/-- The books: what a promise holds and the log says, with the continuations still to
be called. -/
structure Booked (p : Promise R E) (log : List (Event R E)) (registered : Nat)
    (pending : List Nat) : Prop where
  waiting : p.terminated = false → attempts log = [] ∧ sets log = [] ∧ invoked log = []
  settled : p.terminated = true → ∃ o, sets log = [o] ∧ (attempts log).head? = some o
  result : ∀ r, p.result = some r ↔ .result r ∈ sets log
  exception : ∀ e, p.exception = some e → .exception e ∈ sets log
  after_set : AfterSet log
  perm : (invoked log ++ pending).Perm (List.range registered)

namespace Booked

variable {p : Promise R E} {n : Nat} {pending : List Nat}

section

variable (h : Booked p log n pending)
include h

theorem sets_ne_nil (ht : p.terminated = true) : sets log ≠ [] := by
  obtain ⟨o, ho, -⟩ := h.settled ht
  rw [ho]
  exact cons_ne_nil o []

theorem nodup : (invoked log ++ pending).Nodup := h.perm.nodup_iff.mpr nodup_range

theorem mem_iff {i : Nat} : i ∈ invoked log ∨ i ∈ pending ↔ i < n := by
  rw [← mem_append, h.perm.mem_iff, mem_range]

theorem setContinuations (cs : List Nat) : Booked { p with continuations := cs } log n pending :=
  ⟨h.waiting, h.settled, h.result, h.exception, h.after_set, h.perm⟩

theorem takeException : Booked { p with exception := none } log n pending :=
  ⟨h.waiting, h.settled, h.result, fun _ he => (nomatch he), h.after_set, h.perm⟩

end

theorem queue (h : Booked p log n pending) : Booked p log (n + 1) (pending ++ [n]) := by
  refine ⟨h.waiting, h.settled, h.result, h.exception, h.after_set, ?_⟩
  rw [← append_assoc, range_succ]
  exact h.perm.append_right [n]

theorem callNow (h : Booked p log n pending) (ht : p.terminated = true) :
    Booked p (log ++ [.invoke n]) (n + 1) pending := by
  have hperm : (invoked log ++ [n] ++ pending).Perm (List.range (n + 1)) := by
    rw [range_succ, append_assoc]
    refine (perm_append_comm.append_left _).trans ?_
    rw [← append_assoc]
    exact h.perm.append_right [n]
  refine ⟨fun hf => ?_, fun _ => ?_, ?_, ?_, ?_, ?_⟩
  · cases ht.symm.trans hf
  · simpa using h.settled ht
  · simpa using h.result
  · simpa using h.exception
  · exact h.after_set.concat fun _ _ => h.sets_ne_nil ht
  · simpa using hperm

theorem invoke {i : Nat} (h : Booked p log n (i :: rest)) (ht : p.terminated = true) :
    Booked p (log ++ [.invoke i]) n rest := by
  refine ⟨fun hf => ?_, fun _ => ?_, ?_, ?_, ?_, ?_⟩
  · cases ht.symm.trans hf
  · simpa using h.settled ht
  · simpa using h.result
  · simpa using h.exception
  · exact h.after_set.concat fun _ _ => h.sets_ne_nil ht
  · simpa using h.perm

theorem attempt (h : Booked p log n pending) (ht : p.terminated = true) (o : Outcome R E) :
    Booked p (log ++ [.attempt o]) n pending := by
  refine ⟨fun hf => ?_, fun _ => ?_, ?_, ?_, ?_, ?_⟩
  · cases ht.symm.trans hf
  · obtain ⟨first, hset, hfirst⟩ := h.settled ht
    refine ⟨first, by simpa using hset, ?_⟩
    rw [attempts_append, head?_append, hfirst]
    rfl
  · simpa using h.result
  · simpa using h.exception
  · exact h.after_set.concat fun _ heq => nomatch heq
  · simpa using h.perm

section

variable (h : Booked p log n pending) (ht : p.terminated = false)
include h ht

theorem set (o : Outcome R E) {p' : Promise R E} (ht' : p'.terminated = true)
    (hresult : ∀ r, p'.result = some r ↔ o = .result r)
    (hexception : ∀ e, p'.exception = some e → o = .exception e) :
    Booked p' (log ++ [.attempt o] ++ [.set o]) n pending := by
  obtain ⟨hattempts, hsets, -⟩ := h.waiting ht
  refine ⟨fun hf => ?_, fun _ => ⟨o, ?_, ?_⟩, fun r => ?_, fun e he => ?_, ?_, ?_⟩
  · cases ht'.symm.trans hf
  · simp [hsets]
  · simp [hattempts]
  · simpa [hsets, eq_comm] using hresult r
  · simpa [hsets, eq_comm] using hexception e he
  · refine AfterSet.concat (h.after_set.concat ?_) ?_
    · exact fun _ heq => nomatch heq
    · exact fun _ heq => nomatch heq
  · simpa using h.perm

theorem setResult (r : R) : Booked { p with terminated := true, result := some r }
      (log ++ [.attempt (.result r)] ++ [.set (.result r)]) n pending := by
  refine h.set ht (.result r) rfl (fun r' => ?_) (fun e he => ?_)
  · show some r = some r' ↔ _
    rw [Option.some_inj, Outcome.result.injEq]
  · have hmem := h.exception e he
    rw [(h.waiting ht).2.1] at hmem
    cases hmem

theorem setException (e : E) : Booked { p with terminated := true, exception := some e }
      (log ++ [.attempt (.exception e)] ++ [.set (.exception e)]) n pending := by
  refine h.set ht (.exception e) rfl (fun r => ?_) (fun e' he => ?_)
  · show p.result = some r ↔ _
    rw [h.result, (h.waiting ht).2.1]
    exact iff_of_false not_mem_nil (fun heq => by cases heq)
  · rw [Option.some_inj.mp he]

end

end Booked

end Log

/-! ## 5. The stack -/

/-- The coroutine is at the bottom of the stack while it runs, and other continuations
only run when the operation is done. While `terminated` holds and the coroutine has not
ended, `terminate` drives it or it is in `complete`. -/
inductive Shape : Point → Bool → List Frame → Prop
  | suspended : Shape .suspended false []
  | running : Shape .body false [.coroutine .caller]
  | driven : Shape .body true [.coroutine .terminate]
  | completing (caller : Caller) (rest : List Nat) (resumer : Resumer) :
      Shape (.complete caller rest) true [.coroutine resumer]
  | final : Shape .final true []
  | continuation {point : Point} {stack : List Frame} :
      Shape point true stack → Shape point true (.continuation :: stack)

namespace Shape

variable {point : Point} {terminated : Bool} {stack below : List Frame}

theorem of_continuation (h : Shape point terminated (.continuation :: below)) :
    terminated = true ∧ Shape point true below := by
  cases h with
  | continuation h => exact ⟨rfl, h⟩

theorem of_nil (h : Shape point terminated []) :
    (point = .suspended ∧ terminated = false) ∨ (point = .final ∧ terminated = true) := by
  cases h with
  | suspended => exact Or.inl ⟨rfl, rfl⟩
  | final => exact Or.inr ⟨rfl, rfl⟩

theorem of_suspended (h : Shape .suspended terminated stack) : terminated = false ∧ stack = [] := by
  generalize hpoint : Point.suspended = point at h
  induction h with
  | suspended => exact ⟨rfl, rfl⟩
  | running | driven | completing | final => cases hpoint
  | continuation _ ih => cases (ih hpoint).1

theorem of_coroutine {resumer : Resumer}
    (h : Shape point terminated (.coroutine resumer :: below)) :
    below = [] ∧
      (point = .body ∨ (∃ caller rest, point = .complete caller rest) ∧ terminated = true) := by
  cases h with
  | running | driven => exact ⟨rfl, Or.inl rfl⟩
  | completing caller rest => exact ⟨rfl, Or.inr ⟨⟨caller, rest, rfl⟩, rfl⟩⟩

theorem of_not_terminated (h : Shape point false stack) :
    (point = .suspended ∧ stack = []) ∨ (point = .body ∧ stack = [.coroutine .caller]) := by
  cases h with
  | suspended => exact Or.inl ⟨rfl, rfl⟩
  | running => exact Or.inr ⟨rfl, rfl⟩

end Shape

namespace State

/-- The continuations that are still to be called. -/
def pending (s : State R E) : List Nat :=
  match s.point with
  | .suspended | .body => s.promise.continuations
  | .complete _ rest => rest
  | .final => []

variable {s : State R E}

theorem done_eq (h : Shape s.point s.promise.terminated s.stack) :
    s.done = s.promise.terminated := by
  unfold done handleDone
  cases ht : s.promise.terminated with
  | true => exact Bool.or_true _
  | false =>
    rw [ht] at h
    cases h.of_not_terminated with
    | inl h | inr h => rw [h.1]; rfl

theorem setTerminated_of (ht : s.promise.terminated = true) : s.setTerminated = s := by
  cases s with
  | mk promise =>
    cases promise with
    | mk terminated => cases ht; rfl

theorem turn_coroutine {resumer : Resumer} {below : List Frame}
    (hstack : s.stack = .coroutine resumer :: below) (a : Act R E) :
    s.turn a = s.coroutineAct resumer below a := by
  unfold turn
  rw [hstack]

theorem turn_ret {below : List Frame} (hstack : s.stack = .continuation :: below) :
    s.turn .ret = { s with stack := below } := by
  unfold turn
  rw [hstack]

section Outcomes

variable {resumer : Resumer} {below : List Frame}

theorem returnValue_first (ht : s.promise.terminated = false) (r : R) :
    s.returnValue resumer below r =
      ((s.attempt (.result r)).setResult r).setTerminated.complete .returnValue resumer below
        s.promise.continuations := by
  have ht : (s.attempt (.result r)).promise.terminated = false := ht
  simp only [returnValue, ht, Bool.false_eq_true, if_false]
  rfl

theorem returnValue_late (ht : s.promise.terminated = true) (r : R) :
    s.returnValue resumer below r =
      (s.attempt (.result r)).complete .returnValue resumer below s.promise.continuations := by
  have ht : (s.attempt (.result r)).promise.terminated = true := ht
  simp only [returnValue, ht, if_true, setTerminated_of ht]
  rfl

theorem unhandledException_first (ht : s.promise.terminated = false) (e : E) :
    s.unhandledException resumer below e =
      ((s.attempt (.exception e)).setException e).setTerminated.complete .unhandledException
        resumer below s.promise.continuations := by
  have ht : (s.attempt (.exception e)).promise.terminated = false := ht
  simp only [unhandledException, ht, Bool.false_eq_true, if_false]
  rfl

theorem unhandledException_late (ht : s.promise.terminated = true) (e : E) :
    s.unhandledException resumer below e =
      (s.attempt (.exception e)).complete .unhandledException resumer below
        s.promise.continuations := by
  have ht : (s.attempt (.exception e)).promise.terminated = true := ht
  simp only [unhandledException, ht, if_true, setTerminated_of ht]
  rfl

end Outcomes

end State

/-- The invariant of careful runs. -/
structure Inv (s : State R E) : Prop where
  defined : s.undefined = false
  booked : Booked s.promise s.log s.registered s.pending
  shape : Shape s.point s.promise.terminated s.stack
  /-- The loop of `complete` has begun with the first continuation. -/
  begun : ∀ caller rest, s.point = .complete caller rest →
    ∃ i, s.promise.continuations.head? = some i ∧ i ∈ invoked s.log

namespace Inv

variable {s : State R E}

theorem exactlyOnce (h : Inv s) : ExactlyOnce s := by
  have hdone := State.done_eq h.shape
  refine ⟨h.defined, ?_, ?_, h.booked.result, h.booked.exception, ?_, h.booked.after_set,
    ?_, ?_, ?_⟩
  · cases ht : s.promise.terminated with
    | false =>
      rw [(h.booked.waiting ht).2.1]
      exact Nat.zero_le 1
    | true =>
      obtain ⟨o, ho, -⟩ := h.booked.settled ht
      rw [ho]
      exact Nat.le_refl 1
  · intro o ho
    cases ht : s.promise.terminated with
    | false =>
      rw [(h.booked.waiting ht).2.1] at ho
      cases ho
    | true =>
      obtain ⟨first, hsets, hfirst⟩ := h.booked.settled ht
      rw [hsets] at ho
      rw [mem_singleton.mp ho, hfirst]
  · intro hd
    exact h.booked.sets_ne_nil (hdone.symm.trans hd)
  · exact h.booked.nodup.of_append_left
  · intro i hi
    exact h.booked.mem_iff.mp (Or.inl hi)
  · intro hstack hd i hi
    have hshape := h.shape
    rw [hstack, hdone.symm.trans hd] at hshape
    have hpending : s.pending = [] := by
      cases hshape.of_nil with
      | inl hsusp => cases hsusp.2
      | inr hfinal => unfold State.pending; rw [hfinal.1]
    cases h.booked.mem_iff.mpr hi with
    | inl hmem => exact hmem
    | inr hmem => rw [hpending] at hmem; cases hmem

theorem of_booked {cs : List Nat} (hdefined : s.undefined = false)
    (hpoint : s.point = .suspended ∨ s.point = .body) (hcs : s.promise.continuations = cs)
    (hbooked : Booked s.promise s.log s.registered cs)
    (hshape : Shape s.point s.promise.terminated s.stack) : Inv s := by
  have hpending : s.pending = cs := by
    unfold State.pending
    cases hpoint with
    | inl hsusp => rw [hsusp]; exact hcs
    | inr hbody => rw [hbody]; exact hcs
  refine ⟨hdefined, hpending ▸ hbooked, hshape, fun caller rest heq => ?_⟩
  cases hpoint with
  | inl hsusp => exact nomatch hsusp.symm.trans heq
  | inr hbody => exact nomatch hbody.symm.trans heq

theorem booked_continuations (h : Inv s) (hpoint : s.point = .suspended ∨ s.point = .body) :
    Booked s.promise s.log s.registered s.promise.continuations := by
  have hbooked := h.booked
  unfold State.pending at hbooked
  cases hpoint with
  | inl hsusp => rw [hsusp] at hbooked; exact hbooked
  | inr hbody => rw [hbody] at hbooked; exact hbooked

theorem booked_rest (h : Inv s) (hpoint : s.point = .complete caller rest) :
    Booked s.promise s.log s.registered rest := by
  have hbooked := h.booked
  unfold State.pending at hbooked
  rw [hpoint] at hbooked
  exact hbooked

theorem waiting (h : Inv s) (ht : s.promise.terminated = false) :
    (s.point = .suspended ∧ s.stack = []) ∨ (s.point = .body ∧ s.stack = [.coroutine .caller]) :=
  (ht ▸ h.shape).of_not_terminated

/-! ### Calls -/

theorem onComplete (h : Inv s) : Inv s.onComplete := by
  unfold State.onComplete
  cases hd : s.done with
  | true =>
    have ht : s.promise.terminated = true := (State.done_eq h.shape).symm.trans hd
    rw [if_pos rfl]
    refine ⟨h.defined, h.booked.callNow ht, ?_, fun caller rest hpoint => ?_⟩
    · show Shape s.point s.promise.terminated (.continuation :: s.stack)
      rw [ht]
      exact .continuation (ht ▸ h.shape)
    · obtain ⟨i, hhead, hi⟩ := h.begun caller rest hpoint
      exact ⟨i, hhead, by simpa using Or.inl hi⟩
  | false =>
    have ht : s.promise.terminated = false := (State.done_eq h.shape).symm.trans hd
    have hpoint : s.point = .suspended ∨ s.point = .body := (h.waiting ht).imp And.left And.left
    rw [if_neg Bool.false_ne_true]
    exact of_booked h.defined hpoint rfl
      ((h.booked_continuations hpoint).queue.setContinuations _) h.shape

theorem handleResume (h : Inv s) (hpoint : s.point = .suspended) :
    Inv (s.handleResume .caller) := by
  obtain ⟨ht, hstack⟩ := (hpoint ▸ h.shape : Shape .suspended _ _).of_suspended
  unfold State.handleResume
  rw [hpoint]
  refine of_booked h.defined (Or.inr rfl) rfl (h.booked_continuations (Or.inl hpoint)) ?_
  show Shape .body s.promise.terminated (.coroutine .caller :: s.stack)
  rw [ht, hstack]
  exact .running

theorem resume (h : Inv s) (hc : s.point = .body → s.promise.terminated = true) : Inv s.resume := by
  unfold State.resume
  cases hd : s.done with
  | true => exact h
  | false =>
    have ht : s.promise.terminated = false := (State.done_eq h.shape).symm.trans hd
    cases h.waiting ht with
    | inl hsusp => exact h.handleResume hsusp.1
    | inr hbody => cases (hc hbody.1).symm.trans ht

theorem attempt (h : Inv s) (ht : s.promise.terminated = true) (o : Outcome R E) :
    Inv (s.attempt o) := by
  refine ⟨h.defined, h.booked.attempt ht o, h.shape, fun caller rest hpoint => ?_⟩
  obtain ⟨i, hhead, hi⟩ := h.begun caller rest hpoint
  exact ⟨i, hhead, by simpa [State.attempt] using hi⟩

theorem terminate (h : Inv s) (r : R) (hc : s.point = .body → s.promise.terminated = true) :
    Inv (s.terminate (some r)) := by
  have hdone : (s.attempt (.result r)).done = s.promise.terminated := State.done_eq h.shape
  show Inv (if (s.attempt (.result r)).done then s.attempt (.result r)
    else ((s.attempt (.result r)).promiseTerminate (some r)).handleResume .terminate)
  rw [hdone]
  cases ht : s.promise.terminated with
  | true =>
    rw [if_pos rfl]
    exact h.attempt ht _
  | false =>
    rw [if_neg Bool.false_ne_true]
    cases h.waiting ht with
    | inr hbody => cases (hc hbody.1).symm.trans ht
    | inl hsusp =>
      obtain ⟨hpoint, hstack⟩ := hsusp
      have hpromise : (s.attempt (.result r)).promiseTerminate (some r) =
          (s.attempt (.result r)).setTerminated.setResult r :=
        if_neg (ht ▸ Bool.false_ne_true)
      rw [hpromise]
      unfold State.handleResume
      show Inv (match s.point with | .suspended => _ | _ => _)
      rw [hpoint]
      refine of_booked h.defined (Or.inr rfl) rfl ?_ ?_
      · exact (h.booked_continuations (Or.inl hpoint)).setResult ht r
      · show Shape .body true (.coroutine .terminate :: s.stack)
        rw [hstack]
        exact .driven

theorem call (h : Inv s) (c : Call R) (hc : Careful s (.call c)) : Inv (s.call c) := by
  cases c with
  | onComplete => exact h.onComplete
  | resume => exact h.resume hc
  | terminate r =>
    cases r with
    | some r => exact h.terminate r hc
    | none =>
      show Inv (if s.done then s else s.promiseTerminate none)
      rw [show s.done = true from hc]
      exact h
  | result =>
    exact ⟨h.defined, h.booked.takeException, h.shape, h.begun⟩
  | handleResume => exact h.handleResume hc

/-! ### The coroutine -/

variable {resumer : Resumer}

theorem complete (hdefined : s.undefined = false)
    (hbooked : Booked s.promise s.log s.registered rest) (ht : s.promise.terminated = true)
    (hstack : s.stack = [.coroutine resumer]) (hbegun : ∀ i, rest.head? = some i →
      ∃ j, s.promise.continuations.head? = some j ∧ (j ∈ invoked s.log ∨ j = i)) :
    Inv (s.complete caller resumer [] rest) := by
  cases rest with
  | nil =>
    have hfinal : s.complete caller resumer [] [] =
        { s with
          promise := { s.promise with continuations := [] }
          point := .final
          stack := [] } := by
      cases resumer <;> rfl
    rw [hfinal]
    refine ⟨hdefined, hbooked.setContinuations [], ?_, fun _ _ heq => by cases heq⟩
    show Shape .final s.promise.terminated []
    rw [ht]
    exact .final
  | cons i rest =>
    refine ⟨hdefined, hbooked.invoke ht, ?_, fun _ _ _ => ?_⟩
    · show Shape (.complete caller rest) s.promise.terminated s.stack
      rw [ht, hstack]
      exact .completing caller rest resumer
    · obtain ⟨j, hhead, hj⟩ := hbegun i rfl
      refine ⟨j, hhead, ?_⟩
      show j ∈ invoked (s.log ++ [.invoke i])
      rw [invoked_append, mem_append]
      cases hj with
      | inl hmem => exact Or.inl hmem
      | inr heq => exact Or.inr (mem_singleton.mpr heq)

theorem complete_all (hdefined : s.undefined = false)
    (hbooked : Booked s.promise s.log s.registered s.promise.continuations)
    (ht : s.promise.terminated = true) (hstack : s.stack = [.coroutine resumer]) :
    Inv (s.complete caller resumer [] s.promise.continuations) :=
  complete hdefined hbooked ht hstack fun i hi => ⟨i, hi, Or.inr rfl⟩

section

variable (h : Inv s) (hpoint : s.point = .body) (hstack : s.stack = [.coroutine resumer])
include h hpoint hstack

theorem returnValue (r : R) : Inv (s.returnValue resumer [] r) := by
  have hbooked := h.booked_continuations (Or.inr hpoint)
  cases ht : s.promise.terminated with
  | true =>
    rw [State.returnValue_late ht]
    exact complete_all h.defined (hbooked.attempt ht _) ht hstack
  | false =>
    rw [State.returnValue_first ht]
    exact complete_all h.defined (hbooked.setResult ht r) rfl hstack

theorem unhandledException (e : E) : Inv (s.unhandledException resumer [] e) := by
  have hbooked := h.booked_continuations (Or.inr hpoint)
  cases ht : s.promise.terminated with
  | true =>
    rw [State.unhandledException_late ht]
    exact complete_all h.defined (hbooked.attempt ht _) ht hstack
  | false =>
    rw [State.unhandledException_first ht]
    exact complete_all h.defined (hbooked.setException ht e) rfl hstack

/-- The body awaits something. Driven by `terminate`, it is resumed at once. -/
theorem suspend : Inv ({ s with point := .suspended }.returnTo resumer []) := by
  have hbooked := h.booked_continuations (Or.inr hpoint)
  have hshape := h.shape
  rw [hpoint, hstack] at hshape
  cases resumer with
  | caller =>
    refine of_booked h.defined (Or.inl rfl) rfl hbooked ?_
    show Shape .suspended s.promise.terminated []
    cases ht : s.promise.terminated with
    | false => exact .suspended
    | true => rw [ht] at hshape; cases hshape
  | terminate =>
    refine of_booked h.defined (Or.inr rfl) rfl hbooked ?_
    show Shape .body s.promise.terminated s.stack
    rw [hstack]
    exact hshape

end

theorem completeAct (h : Inv s) (hpoint : s.point = .complete caller rest)
    (ht : s.promise.terminated = true) (hstack : s.stack = [.coroutine resumer]) (a : Act R E)
    (hc : Careful s a) : Inv (s.coroutineAct resumer [] a) := by
  have hbooked := h.booked_rest hpoint
  unfold State.coroutineAct
  rw [hpoint]
  cases a with
  | call c | suspend | coReturn r => cases caller <;> exact h
  | ret =>
    obtain ⟨j, hhead, hj⟩ := h.begun caller rest hpoint
    cases caller <;> exact complete h.defined hbooked ht hstack fun _ _ => ⟨j, hhead, Or.inl hj⟩
  | throw e =>
    unfold Careful at hc
    rw [hstack, hpoint] at hc
    cases caller with
    | returnValue => exact hc.elim
    | unhandledException =>
      cases hc
      refine ⟨h.defined, hbooked, ?_, fun _ _ heq => by cases heq⟩
      show Shape .final s.promise.terminated []
      rw [ht]
      exact .final

theorem bodyAct (h : Inv s) (hpoint : s.point = .body) (hstack : s.stack = [.coroutine resumer])
    (a : Act R E) : Inv (s.coroutineAct resumer [] a) := by
  unfold State.coroutineAct
  rw [hpoint]
  cases a with
  | call c => exact h
  | ret => exact h
  | suspend => exact h.suspend hpoint hstack
  | coReturn r => exact h.returnValue hpoint hstack r
  | throw e => exact h.unhandledException hpoint hstack e

theorem turn (h : Inv s) (a : Act R E) (hc : Careful s a) : Inv (s.turn a) := by
  have hshape := h.shape
  cases hstack : s.stack with
  | nil =>
    unfold State.turn
    rw [hstack]
    exact h
  | cons frame below =>
    rw [hstack] at hshape
    cases frame with
    | coroutine resumer =>
      obtain ⟨rfl, hcases⟩ := hshape.of_coroutine
      rw [State.turn_coroutine hstack]
      cases hcases with
      | inl hbody => exact h.bodyAct hbody hstack a
      | inr hcomplete =>
        obtain ⟨⟨caller, rest, hpoint⟩, ht⟩ := hcomplete
        exact h.completeAct hpoint ht hstack a hc
    | continuation =>
      obtain ⟨ht, hbelow⟩ := hshape.of_continuation
      have hpop : Inv { s with stack := below } := by
        refine ⟨h.defined, h.booked, ?_, h.begun⟩
        show Shape s.point s.promise.terminated below
        rw [ht]
        exact hbelow
      unfold State.turn
      rw [hstack]
      cases a with
      | call c => exact h
      | suspend => exact h
      | coReturn r => exact h
      | ret => exact hpop
      | throw e => exact hpop

theorem step (h : Inv s) (a : Act R E) (hc : Careful s a) : Inv (s.step a) := by
  cases a with
  | call c => exact h.call c hc
  | suspend => exact h.turn .suspend hc
  | coReturn r => exact h.turn (.coReturn r) hc
  | ret => exact h.turn .ret hc
  | throw e => exact h.turn (.throw e) hc

theorem init : Inv ({} : State R E) where
  defined := rfl
  booked :=
    { waiting := fun _ => ⟨rfl, rfl, rfl⟩
      settled := fun ht => by cases ht
      result := fun r => iff_of_false (fun heq => by cases heq) not_mem_nil
      exception := fun e he => by cases he
      after_set := fun pre i post heq => by cases pre <;> cases heq
      perm := List.Perm.refl _ }
  shape := .running
  begun := fun _ _ heq => by cases heq

/-! ### Steps that are not careful -/

theorem careless_handleResume (hpoint : s.point ≠ .suspended) (resumer : Resumer) :
    ¬ExactlyOnce (s.handleResume resumer) := by
  intro hexact
  have hdefined := hexact.defined
  unfold State.handleResume at hdefined
  cases hp : s.point with
  | suspended => exact hpoint hp
  | body | complete caller rest | final => rw [hp] at hdefined; cases hdefined

theorem careless_construction (h : Inv s) (ht : s.promise.terminated = false) :
    ¬ExactlyOnce s.setTerminated := by
  intro hexact
  exact hexact.done_set (Bool.or_true _) (h.booked.waiting ht).2.1

/-- `return_value` has thrown, and `unhandled_exception` begins with the first
continuation again. -/
theorem careless_returnValue (h : Inv s) {below : List Frame}
    (hpoint : s.point = .complete .returnValue rest) (ht : s.promise.terminated = true) (e : E) :
    ¬ExactlyOnce (s.unhandledException resumer below e) := by
  intro hexact
  obtain ⟨i, hhead, hi⟩ := h.begun .returnValue rest hpoint
  cases hcs : s.promise.continuations with
  | nil => rw [hcs] at hhead; cases hhead
  | cons j cs =>
    rw [hcs] at hhead
    cases hhead
    have hnodup := hexact.at_most_once
    rw [State.unhandledException_late ht, hcs] at hnodup
    have htwice : (invoked s.log ++ [i]).Nodup := by
      simpa [State.complete, State.attempt] using hnodup
    exact disjoint_of_nodup_append htwice hi mem_cons_self

/-- An exception leaves the coroutine, and the continuations in `rest` are lost. -/
theorem careless_unhandledException (h : Inv s)
    (hpoint : s.point = .complete .unhandledException rest) (hrest : rest ≠ []) :
    ¬ExactlyOnce { s with point := .final, stack := [] } := by
  intro hexact
  have hbooked := h.booked_rest hpoint
  cases rest with
  | nil => exact hrest rfl
  | cons i rest =>
    have hi : i ∈ invoked s.log :=
      hexact.all_invoked rfl rfl i (hbooked.mem_iff.mp (Or.inr mem_cons_self))
    exact disjoint_of_nodup_append hbooked.nodup hi mem_cons_self

theorem careless_throw (h : Inv s) (e : E) (hc : ¬Careful s (.throw e)) :
    ¬ExactlyOnce (s.step (.throw e)) := by
  have hshape := h.shape
  show ¬ExactlyOnce (s.turn (.throw e))
  unfold Careful at hc
  cases hstack : s.stack with
  | nil => rw [hstack] at hc; exact absurd trivial hc
  | cons frame below =>
    rw [hstack] at hc hshape
    cases frame with
    | continuation => exact absurd trivial hc
    | coroutine resumer =>
      obtain ⟨rfl, hcases⟩ := hshape.of_coroutine
      rw [State.turn_coroutine hstack]
      unfold State.coroutineAct
      cases hcases with
      | inl hbody => rw [hbody] at hc; exact absurd trivial hc
      | inr hcomplete =>
        obtain ⟨⟨caller, rest, hpoint⟩, ht⟩ := hcomplete
        rw [hpoint] at hc ⊢
        cases caller with
        | returnValue => exact h.careless_returnValue hpoint ht e
        | unhandledException => exact h.careless_unhandledException hpoint hc

theorem careless_call (h : Inv s) (c : Call R) (hc : ¬Careful s (.call c)) :
    ¬ExactlyOnce (s.call c) := by
  have hdone := State.done_eq h.shape
  -- a body that calls `resume` or `terminate` before the operation is done
  have hbody {t : State R E} (ht : t.promise.terminated = false) (hpoint : t.point = .body) :
      t.done = false := by
    unfold State.done State.handleDone
    rw [ht, hpoint]
    rfl
  cases c with
  | onComplete | result => exact absurd trivial hc
  | handleResume => exact careless_handleResume hc .caller
  | resume =>
    obtain ⟨hpoint, ht⟩ := Classical.not_imp.mp hc
    show ¬ExactlyOnce (if s.done then s else s.handleResume .caller)
    rw [hbody (Bool.eq_false_iff.mpr ht) hpoint, if_neg Bool.false_ne_true]
    exact careless_handleResume (fun heq => by cases hpoint.symm.trans heq) .caller
  | terminate r =>
    cases r with
    | none =>
      have hd : s.done = false := Bool.eq_false_iff.mpr hc
      have ht : s.promise.terminated = false := hdone.symm.trans hd
      show ¬ExactlyOnce (if s.done then s else if s.promise.terminated then s else s.setTerminated)
      rw [hd, ht, if_neg Bool.false_ne_true, if_neg Bool.false_ne_true]
      exact h.careless_construction ht
    | some r =>
      obtain ⟨hpoint, hno⟩ := Classical.not_imp.mp hc
      have ht : s.promise.terminated = false := Bool.eq_false_iff.mpr hno
      have hattempt : (s.attempt (.result r)).done = false := hbody ht hpoint
      show ¬ExactlyOnce (if (s.attempt (.result r)).done then s.attempt (.result r)
        else ((s.attempt (.result r)).promiseTerminate (some r)).handleResume .terminate)
      rw [hattempt, if_neg Bool.false_ne_true]
      refine careless_handleResume (fun heq => ?_) .terminate
      have hsame : ((s.attempt (.result r)).promiseTerminate (some r)).point = s.point := by
        unfold State.promiseTerminate
        split <;> rfl
      cases hpoint.symm.trans (hsame.symm.trans heq)

theorem careless (h : Inv s) (a : Act R E) (hc : ¬Careful s a) : ¬ExactlyOnce (s.step a) := by
  cases a with
  | call c => exact h.careless_call c hc
  | throw e => exact h.careless_throw e hc
  | suspend | coReturn r | ret => exact absurd trivial hc

end Inv

/-! ## 6. Runs -/

namespace State

variable {s : State R E} {resumer : Resumer} {below : List Frame}

/-- What is under way and what `complete` has yet to call. -/
def work (s : State R E) : Nat := s.stack.length + s.pending.length

/-- The code on top comes to its end, the body with the result `r`. -/
def finish (r : R) (s : State R E) : Act R E :=
  match s.stack, s.point with
  | .coroutine _ :: _, .body => .coReturn r
  | _, _ => .ret

theorem finish_eq (r : R) (s : State R E) : s.finish r = .ret ∨ s.finish r = .coReturn r := by
  unfold finish
  split
  · exact Or.inr rfl
  · exact Or.inl rfl

theorem careful_finish (r : R) (s : State R E) : Careful s (s.finish r) := by
  cases s.finish_eq r with
  | inl hret => rw [hret]; trivial
  | inr hreturn => rw [hreturn]; trivial

@[simp] theorem complete_terminated :
    (s.complete caller resumer below rest).promise.terminated = s.promise.terminated := by
  cases rest with
  | nil => cases resumer <;> rfl
  | cons i rest => rfl

theorem returnValue_terminated {r : R} :
    (s.returnValue resumer below r).promise.terminated = true := by
  cases ht : s.promise.terminated with
  | true => rw [returnValue_late ht, complete_terminated]; exact ht
  | false => rw [returnValue_first ht, complete_terminated]; rfl

theorem complete_work (hstack : s.stack = [.coroutine resumer]) :
    (s.complete caller resumer [] rest).work = rest.length := by
  cases rest with
  | nil => cases resumer <;> rfl
  | cons i rest =>
    show s.stack.length + rest.length = rest.length + 1
    rw [hstack]
    exact Nat.add_comm 1 rest.length

theorem returnValue_work {r : R} (hstack : s.stack = [.coroutine resumer]) :
    (s.returnValue resumer [] r).work = s.promise.continuations.length := by
  cases ht : s.promise.terminated with
  | true => rw [returnValue_late ht]; exact complete_work hstack
  | false => rw [returnValue_first ht]; exact complete_work hstack

end State

namespace Inv

variable {s : State R E}

theorem finish (h : Inv s) (hstack : s.stack ≠ []) (r : R) : (s.step (s.finish r)).work < s.work ∧
      (s.promise.terminated = true → (s.step (s.finish r)).promise.terminated = true) := by
  have hshape := h.shape
  cases hs : s.stack with
  | nil => exact absurd hs hstack
  | cons frame below =>
    rw [hs] at hshape
    cases frame with
    | continuation =>
      have hret : s.finish r = .ret := by unfold State.finish; rw [hs]
      have hstep : s.step .ret = { s with stack := below } := State.turn_ret hs
      rw [hret, hstep]
      refine ⟨?_, id⟩
      show below.length + s.pending.length < s.stack.length + s.pending.length
      rw [hs]
      exact Nat.add_lt_add_right (Nat.lt_succ_self below.length) _
    | coroutine resumer =>
      obtain ⟨rfl, hcases⟩ := hshape.of_coroutine
      have hturn := State.turn_coroutine hs
      cases hcases with
      | inl hbody =>
        have hfinish : s.finish r = .coReturn r := by unfold State.finish; rw [hs, hbody]
        have hstep : s.step (.coReturn r) = s.returnValue resumer [] r := by
          show s.turn (.coReturn r) = _
          rw [hturn]
          unfold State.coroutineAct
          rw [hbody]
        rw [hfinish, hstep, State.returnValue_work hs]
        refine ⟨?_, fun _ => State.returnValue_terminated⟩
        unfold State.work State.pending
        rw [hs, hbody]
        exact Nat.lt_add_of_pos_left Nat.one_pos
      | inr hcomplete =>
        obtain ⟨⟨caller, rest, hpoint⟩, ht⟩ := hcomplete
        have hfinish : s.finish r = .ret := by unfold State.finish; rw [hs, hpoint]
        have hstep : s.step .ret = s.complete caller resumer [] rest := by
          show s.turn .ret = _
          rw [hturn]
          unfold State.coroutineAct
          rw [hpoint]
        rw [hfinish, hstep, State.complete_work hs, State.complete_terminated]
        refine ⟨?_, id⟩
        unfold State.work State.pending
        rw [hs, hpoint]
        exact Nat.lt_add_of_pos_left Nat.one_pos

/-- When the code under way comes to its end, control is outside again. -/
theorem exists_finished (r : R) (n : Nat) (h : Inv s) (hn : s.work ≤ n) :
    ∃ rest, (∀ a ∈ rest, a = .ret ∨ a = .coReturn r) ∧ rest.length ≤ n ∧
      Guarded State.step Careful s rest ∧ (rest.foldl State.step s).stack = [] ∧
      (s.promise.terminated = true → (rest.foldl State.step s).promise.terminated = true) := by
  induction n generalizing s with
  | zero =>
    have hlen : s.stack.length = 0 := Nat.eq_zero_of_add_eq_zero_right (Nat.le_zero.mp hn)
    have hnil : s.stack = [] := length_eq_zero_iff.mp hlen
    exact ⟨[], fun _ ha => absurd ha not_mem_nil, Nat.le_refl 0, trivial, hnil, id⟩
  | succ n ih =>
    by_cases hstack : s.stack = []
    · exact ⟨[], fun _ ha => absurd ha not_mem_nil, Nat.zero_le _, trivial, hstack, id⟩
    · obtain ⟨hwork, hterminated⟩ := h.finish hstack r
      have hcareful := s.careful_finish r
      obtain ⟨rest, hrest, hlen, hguarded, hempty, hkept⟩ :=
        ih (h.step _ hcareful) (Nat.le_of_lt_succ (Nat.lt_of_lt_of_le hwork hn))
      refine ⟨s.finish r :: rest, fun a ha => ?_, Nat.succ_le_succ hlen,
        ⟨hcareful, hguarded⟩, hempty, fun ht => hkept (hterminated ht)⟩
      cases mem_cons.mp ha with
      | inl heq => exact heq ▸ s.finish_eq r
      | inr hmem => exact hrest a hmem

end Inv

/-- Every act of the run is careful in the state it meets. -/
def CarefulRun (acts : List (Act R E)) : Prop := Guarded State.step Careful {} acts

theorem inv_run {acts : List (Act R E)} (h : CarefulRun acts) : Inv (run acts) := by
  have hguarded : Guarded State.step Careful {} acts := h
  exact hguarded.inv_foldl (fun _ a hs hc => hs.step a hc) Inv.init

/-- The completion is exactly-once all along a run if and only if the run is careful.
Careful runs do not get stuck either: when the code under way comes to its end, control
is outside again, and all continuations have been called if the operation was done. -/
theorem exactly_once_iff_careful (acts : List (Act R E)) :
    ((∀ pre, pre <+: acts → ExactlyOnce (run pre)) ↔ CarefulRun acts) ∧
      (CarefulRun acts → ∀ r : R, ∃ rest,
        (∀ a ∈ rest, a = .ret ∨ a = .coReturn r) ∧ rest.length ≤ (run acts).work ∧
        CarefulRun (acts ++ rest) ∧ (run (acts ++ rest)).stack = [] ∧
        ((run acts).done = true → ∀ i < (run (acts ++ rest)).registered,
          i ∈ invoked (run (acts ++ rest)).log)) := by
  constructor
  · exact forall_prefix_iff_guarded (fun _ a hs hc => hs.step a hc) (fun _ hs => hs.exactlyOnce)
      (fun _ a hs hc => hs.careless a hc) Inv.init acts
  · intro h r
    have hinv := inv_run h
    obtain ⟨rest, hrest, hlength, hguarded, hempty, hkept⟩ :=
      hinv.exists_finished r _ (Nat.le_refl _)
    have happend : run (acts ++ rest) = rest.foldl State.step (run acts) := List.foldl_append
    have hcareful : CarefulRun (acts ++ rest) := guarded_append.mpr ⟨h, hguarded⟩
    rw [← happend] at hempty hkept
    refine ⟨rest, hrest, hlength, hcareful, hempty, fun hdone => ?_⟩
    have ht : (run acts).promise.terminated = true := (State.done_eq hinv.shape).symm.trans hdone
    refine (inv_run hcareful).exactlyOnce.all_invoked hempty ?_
    rw [State.done_eq (inv_run hcareful).shape]
    exact hkept ht

/-- Two continuations wait for an operation. When it returns and the first throws, that
one is called again; when it throws and the first throws, as it does if it asks for the
result, the second is never called. -/
theorem doubled_and_lost :
    let wait : List (Act Nat Nat) :=
      [.suspend, .call .onComplete, .call .onComplete, .call .resume]
    let doubled := run (wait ++ [.coReturn 5, .throw 1, .ret, .ret])
    let lost := run (wait ++ [.throw 2, .call .result, .throw 2])
    invoked doubled.log = [0, 0, 1] ∧ ¬ExactlyOnce doubled ∧
      invoked lost.log = [0] ∧ lost.stack = [] ∧ lost.done = true ∧ ¬ExactlyOnce lost := by
  refine ⟨rfl, fun h => ?_, rfl, rfl, rfl, fun h => ?_⟩
  · exact absurd h.at_most_once (by decide)
  · exact absurd (h.all_invoked rfl rfl 1 (by decide)) (by decide)

end MoeJit.CoroutineOperation
