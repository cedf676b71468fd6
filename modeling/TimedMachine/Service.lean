import TimedMachine.History
import TimedMachine.Journal
import TimedMachine.Machine.Resolution
import TimedMachine.Options
import TimedMachine.TimerQueue.Progress

/-!
A service runs a machine: it holds the current snapshot, a queue of timers on its own virtual clock,
the history of committed transitions, and a journal of all that it has done.

An operation either completes or meets a sum of times that does not exist. Both outcomes carry the
service as it then is. `Follows` states what every part of an operation leaves alone.
-/
namespace TimedMachine

variable {κ : Type}

inductive Status where
  | stopped
  | running
  deriving DecidableEq, Inhabited

namespace Status

def name : Status → String
  | .stopped => "Stopped"
  | .running => "Running"

def ofName? : String → Option Status
  | "Stopped" => some .stopped
  | "Running" => some .running
  | _ => none

/-- Reads the name, or an object whose only member has the name as its key and is null. -/
def ofJson? : Json → Option Status
  | .str name => ofName? name
  | .obj [(name, .null)] => ofName? name
  | _ => none

end Status

/-- Why a delayed transition that falls due does nothing. -/
inductive Lapse where
  | elsewhere
  | missing
  | ownState
  | undeclared
  deriving DecidableEq

/-- What a service writes into its journal. -/
inductive Entry (κ : Type) where
  | started (clock : Duration)
  | stopped
  /-- The caller's event was taken up. -/
  | accepted (event : Event)
  | judged (guard : Guard κ) (snapshot : Snapshot κ) (event : Event)
  | weighed (condition : Condition κ) (snapshot : Snapshot κ)
  | called (run : ActionFn κ) (context : Option κ) (event : Event)
  | unresolved (name : String)
  | armed (t : Timer)
  | cancelled (timers : List Timer)
  | fired (t : Timer) (clock : Duration)
  | lapsed (t : Timer) (why : Lapse)
  /-- An eventless transition was chosen whose target is not declared. -/
  | astray (state target : String)
  | committed (r : Record Unit)
  | notified (snapshot : Snapshot κ)
  /-- A timed run slept until a deadline, and later finished its drain. -/
  | woke (deadline : Duration)
  | drained (clock : Duration)

structure Service (κ : Type) where
  machine : Machine κ
  options : Options κ
  /-- The number under which the listeners of this service are registered. -/
  channel : Nat
  status : Status := .stopped
  current : Snapshot κ
  timers : TimerQueue := default
  history : History Unit
  written : Journal (Entry κ) := {}

inductive Outcome (κ : Type) where
  | completed (s : Service κ)
  | overflowed (s : Service κ)

namespace Outcome

/-- The service, however the operation went. -/
def service : Outcome κ → Service κ
  | .completed s => s
  | .overflowed s => s

def andThen (o : Outcome κ) (next : Service κ → Outcome κ) : Outcome κ :=
  match o with
  | .completed s => next s
  | .overflowed s => .overflowed s

@[simp] theorem service_completed (s : Service κ) : (completed s).service = s := rfl
@[simp] theorem service_overflowed (s : Service κ) : (overflowed s).service = s := rfl
@[simp] theorem completed_andThen (s : Service κ) (next : Service κ → Outcome κ) :
    (completed s).andThen next = next s := rfl
@[simp] theorem overflowed_andThen (s : Service κ) (next : Service κ → Outcome κ) :
    (overflowed s).andThen next = .overflowed s := rfl

end Outcome

/-- The notes taken by the functions that an entry mentions. -/
def Entry.notes : Entry κ → List (Note κ)
  | .judged guard snapshot event => (guard snapshot event).notes
  | .weighed condition snapshot => (condition snapshot).notes
  | .called run context event => (run context event).notes
  | _ => []

namespace Service

/-- A stopped service on the machine's initial state. -/
def create (machine : Machine κ) (options : Options κ) (channel : Nat) : Service κ :=
  { machine, options, channel
    current := machine.initialSnapshot
    history := { limit := options.historyLimit } }

def now (s : Service κ) : Duration := s.timers.now

def isRunning (s : Service κ) : Bool := s.status = .running

theorem isRunning_iff {s : Service κ} : s.isRunning = true ↔ s.status = .running :=
  decide_eq_true_iff

theorem not_isRunning_iff {s : Service κ} : ¬ s.isRunning = true ↔ s.status = .stopped := by
  rw [isRunning_iff]
  cases s.status <;> simp

/-- Everything done so far, oldest first. -/
def journal (s : Service κ) : List (Entry κ) := s.written.toList

def log (s : Service κ) (e : Entry κ) : Service κ := { s with written := s.written.push e }

@[simp] theorem journal_log (s : Service κ) (e : Entry κ) : (s.log e).journal = s.journal ++ [e] := by
  simp [log, journal]

/-- What all parts of an operation have in common, as long as no timer is taken: the machine, the
options and the status stay, and the queue only sees arming and cancelling. -/
structure Follows (s r : Service κ) : Prop where
  machine : r.machine = s.machine
  options : r.options = s.options
  channel : r.channel = s.channel
  status : r.status = s.status
  timers : s.timers.Leads r.timers

theorem Follows.refl (s : Service κ) : s.Follows s := ⟨rfl, rfl, rfl, rfl, .refl _⟩

theorem Follows.trans {s r u : Service κ} (h : s.Follows r) (k : r.Follows u) : s.Follows u :=
  ⟨k.machine.trans h.machine, k.options.trans h.options, k.channel.trans h.channel,
    k.status.trans h.status, h.timers.trans k.timers⟩

theorem Follows.andThen {s : Service κ} {o : Outcome κ} {next : Service κ → Outcome κ}
    (h : s.Follows o.service) (k : ∀ r : Service κ, r.Follows (next r).service) :
    s.Follows (o.andThen next).service := by
  cases o with
  | completed r => exact h.trans (k r)
  | overflowed r => exact h

/-- A change of the queue that arms or cancels, with its entry in the journal. -/
def withTimers (s : Service κ) (timers : TimerQueue) (e : Entry κ) : Service κ :=
  { s with timers, written := s.written.push e }

theorem follows_withTimers (s : Service κ) {timers : TimerQueue} (e : Entry κ)
    (h : s.timers.Leads timers) : s.Follows (s.withTimers timers e) := ⟨rfl, rfl, rfl, rfl, h⟩

theorem follows_log (s : Service κ) (e : Entry κ) : s.Follows (s.log e) :=
  ⟨rfl, rfl, rfl, rfl, .refl _⟩

def cancelDelayed (s : Service κ) : Service κ :=
  s.withTimers s.timers.cancelDelayed
    (.cancelled (s.timers.pending.filter (fun t => t.task.isDelayed)))

def cancelDeferred (s : Service κ) : Service κ :=
  s.withTimers s.timers.cancelDeferred
    (.cancelled (s.timers.pending.filter (fun t => s.timers.deferred = some t.key)))

theorem follows_cancelDelayed (s : Service κ) : s.Follows s.cancelDelayed :=
  s.follows_withTimers _ s.timers.leads_cancelDelayed

theorem follows_cancelDeferred (s : Service κ) : s.Follows s.cancelDeferred :=
  s.follows_withTimers _ s.timers.leads_cancelDeferred

/-- Arm a timer. -/
def arm (delay : Duration) (task : Task) (s : Service κ) : Outcome κ :=
  match s.timers.arm? delay task with
  | none => .overflowed s
  | some (t, timers) => .completed (s.withTimers timers (.armed t))

theorem follows_arm (delay : Duration) (task : Task) (s : Service κ) :
    s.Follows (s.arm delay task).service := by
  unfold arm
  split
  · exact .refl s
  · rename_i h
    exact s.follows_withTimers _ (TimerQueue.leads_of_arm? h)

/-- Let an event be delivered after a delay, in place of the one that waits to be. -/
def defer (event : Event) (delay : Duration) (s : Service κ) : Outcome κ :=
  match s.timers.defer? event delay with
  | none => .overflowed s.cancelDeferred
  | some (t, timers) => .completed (s.cancelDeferred.withTimers timers (.armed t))

theorem follows_defer (event : Event) (delay : Duration) (s : Service κ) :
    s.Follows (s.defer event delay).service := by
  unfold defer
  split
  · exact s.follows_cancelDeferred
  · rename_i h
    exact ⟨rfl, rfl, rfl, rfl, TimerQueue.leads_of_defer? h⟩

/-- Arm the delayed transitions of a state, numbered from `index` on. -/
def armEach (state : String) : Nat → List (Delayed κ) → Service κ → Outcome κ
  | _, [], s => .completed s
  | index, t :: rest, s =>
    (s.arm t.delay (.delayed state index)).andThen (armEach state (index + 1) rest)

def armDelayed (s : Service κ) : Outcome κ :=
  armEach s.current.value 0 (s.machine.afterOf s.current.value) s

theorem follows_armEach (state : String) (index : Nat) (ts : List (Delayed κ)) (s : Service κ) :
    s.Follows (armEach state index ts s).service := by
  induction ts generalizing index s with
  | nil => exact .refl s
  | cons t rest ih => exact (s.follows_arm _ _).andThen (ih _)

def withCurrent (next : Snapshot κ) (s : Service κ) : Service κ := { s with current := next }

theorem follows_withCurrent (next : Snapshot κ) (s : Service κ) : s.Follows (s.withCurrent next) :=
  ⟨rfl, rfl, rfl, rfl, .refl _⟩

/-- An assignment needs a context to change. -/
def assign (update : κ → κ) (s : Service κ) : Service κ :=
  match s.current.context with
  | none => s
  | some context => s.withCurrent { s.current with context := some (update context) }

theorem follows_assign (update : κ → κ) (s : Service κ) : s.Follows (s.assign update) := by
  unfold assign
  split
  · exact .refl s
  · exact follows_withCurrent _ s

/-- Call an action's function on the present context and do what it asks for. -/
def perform (run : ActionFn κ) (event : Event) (s : Service κ) : Outcome κ :=
  let called := s.log (.called run s.current.context event)
  match (run s.current.context event).effect with
  | .done => .completed called
  | .assign update => .completed (called.assign update)
  | .send later delay => called.defer later delay

theorem follows_perform (run : ActionFn κ) (event : Event) (s : Service κ) :
    s.Follows (s.perform run event).service := by
  unfold perform
  dsimp only
  split
  · exact s.follows_log _
  · exact (s.follows_log _).trans (follows_assign _ _)
  · exact (s.follows_log _).trans (follows_defer _ _ _)

/-- Run actions in order, each on the context left by those before it; a name that stands for no
function is passed over. -/
def execute (event : Event) : List (Action κ) → Service κ → Outcome κ
  | [], s => .completed s
  | action :: rest, s =>
    match s.options.resolve action with
    | none => execute event rest (s.log (.unresolved (action.name?.getD "")))
    | some run => (s.perform run event).andThen (execute event rest)

theorem follows_execute (event : Event) (actions : List (Action κ)) (s : Service κ) :
    s.Follows (execute event actions s).service := by
  induction actions generalizing s with
  | nil => exact .refl s
  | cons action rest ih =>
    rw [execute]
    split
    · exact (s.follows_log _).trans (ih _)
    · exact (s.follows_perform _ _).andThen ih

/-- Tell the listeners about the current snapshot. -/
def notify (s : Service κ) : Service κ := s.log (.notified s.current)

end Service
end TimedMachine
