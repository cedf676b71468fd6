import TimedMachine.Proofs.Agreement
import TimedMachine.Proofs.Calm
import TimedMachine.Proofs.Recording
import TimedMachine.Proofs.Twin

/-!
Restarting forgets. A stopped service has nothing waiting, so of its past only the snapshot is left,
with what its clock reads and which number its next timer gets. Two stopped services on equal
snapshots are therefore twins, and whatever is done to both from then on, what they do differs by
where their clocks stand and by nothing else (`sameSince_run`).
-/
namespace TimedMachine

variable {κ : Type}

/-- The caller's code is run: an action, a guard, a condition or a listener. -/
def Entry.callsOut : Entry κ → Bool
  | .judged .. | .weighed .. | .called .. | .notified _ => true
  | _ => false

/-- The readings `a` and `a'` are equally far from `t` and from `t'`. -/
def SameDistance (t t' a a' : Duration) : Prop := (a.nanos : Int) - t.nanos = a'.nanos - t'.nanos

/-- The records tell of the same transition, at the same distance from `t` and from `t'`. -/
structure SameRecord (t t' : Duration) (x x' : Record Unit) : Prop where
  source : x'.source = x.source
  target : x'.target = x.target
  event : x'.event = x.event
  clock : SameDistance t t' x.clock x'.clock

theorem Shift.Times.sameDistance {f : Shift} {a b : Duration} (h : f.Times a b) :
    SameDistance f.clock f.clock' a b := by
  simp only [Shift.Times, SameDistance] at *
  omega

namespace Entry

variable {f : Shift} {e e' : Entry κ}

/-- Corresponding calls of the same functions are equal. -/
theorem Alike.eq_of_callsOut (h : e.Alike Eq f e') (hcall : e.callsOut = true) : e' = e := by
  cases h with
  | judged hs => rw [hs.eq]
  | weighed hs => rw [hs.eq]
  | called => rfl
  | notified hs => rw [hs.eq]
  | _ => cases hcall

theorem Alike.callsOut_eq (h : e.Alike Eq f e') : e'.callsOut = e.callsOut := by
  cases h <;> rfl

theorem Alike.record? {m : Matching κ} (h : e.Alike m f e') :
    Option.Rel (SameRecord f.clock f.clock') e.record? e'.record? := by
  cases h with
  | committed hclock => exact .some ⟨rfl, rfl, rfl, hclock.sameDistance⟩
  | _ => exact .none

/-- The same calls stand in corresponding journals. -/
theorem filter_callsOut_eq {es es' : List (Entry κ)} (h : List.Forall₂ (Entry.Alike Eq f) es es') :
    es'.filter callsOut = es.filter callsOut := by
  induction h with
  | nil => rfl
  | @cons e e' _ _ he _ ih =>
    rw [List.filter_cons, List.filter_cons, he.callsOut_eq, ih]
    by_cases hcall : e.callsOut = true
    · rw [if_pos hcall, if_pos hcall, he.eq_of_callsOut hcall]
    · rw [if_neg hcall, if_neg hcall]

/-- The same transitions stand in corresponding journals. -/
theorem filterMap_record?_alike {m : Matching κ} {es es' : List (Entry κ)}
    (h : List.Forall₂ (Entry.Alike m f) es es') :
    List.Forall₂ (SameRecord f.clock f.clock') (es.filterMap Entry.record?)
      (es'.filterMap Entry.record?) :=
  List.rel_filterMap (fun _ _ he => he.record?) h

end Entry

namespace Service

/-- What two services have in common after the same operations, done to one since it was `s` and to
the other since it was `s'`. -/
structure SameSince (s s' r r' : Service κ) : Prop where
  status : r'.status = r.status
  current : r'.current = r.current
  calls : (r'.since s').filter Entry.callsOut = (r.since s).filter Entry.callsOut
  waiting : r'.timers.pending.length = r.timers.pending.length
  clock : SameDistance s.now s'.now r.now r'.now
  deadline : Option.Rel (SameDistance s.now s'.now) r.timers.nextDeadline r'.timers.nextDeadline
  records : List.Forall₂ (SameRecord s.now s'.now) ((r.since s).filterMap Entry.record?)
    ((r'.since s').filterMap Entry.record?)
  /-- The records are those that were pushed to the histories. -/
  history : r.history = ((r.since s).filterMap Entry.record?).foldl History.push s.history
  history' : r'.history = ((r'.since s').filterMap Entry.record?).foldl History.push s'.history

theorem Steps.history_since {s r : Service κ} (h : Steps s r) :
    r.history = ((r.since s).filterMap Entry.record?).foldl History.push s.history := by
  obtain ⟨new, hr, hnew⟩ := h.keeps
  rw [since_eq_of_append hr, hnew]

/-- Twins over one machine differ by where their clocks stand and by nothing else. -/
theorem Pairing.Twins.sameSince {s s' r r' : Service κ} (h : (Pairing.mk Eq s s').Twins r r')
    (hsteps : Steps s r) (hsteps' : Steps s' r') : SameSince s s' r r' := by
  obtain ⟨es, es', hr, hr', halike⟩ := h.journal
  have hsince := since_eq_of_append hr
  have hsince' := since_eq_of_append hr'
  constructor
  case status => exact h.status
  case current => exact h.current.eq
  case calls =>
    rw [hsince, hsince']
    exact Entry.filter_callsOut_eq halike
  case waiting => exact h.timers.pending.length_eq.symm
  case clock => exact h.now.sameDistance
  case deadline =>
    have hdeadline := h.timers.nextDeadline
    generalize r.timers.nextDeadline = x at hdeadline ⊢
    generalize r'.timers.nextDeadline = y at hdeadline ⊢
    cases hdeadline with
    | none => exact .none
    | some htimes => exact .some htimes.sameDistance
  case records =>
    rw [hsince, hsince']
    exact Entry.filterMap_record?_alike halike
  case history => exact hsteps.history_since
  case history' => exact hsteps'.history_since

/-- Nothing is left of the past of a stopped service. -/
structure Blank (machine : Machine κ) (options : Options κ) (s : Service κ) : Prop where
  machine : s.machine = machine
  options : s.options = options
  status : s.status = .stopped
  pending : s.timers.pending = []
  deferred : s.timers.deferred = none

variable {machine : Machine κ} {options options' : Options κ}

theorem Blank.matched {s s' : Service κ} (h : s.Blank machine options)
    (h' : s'.Blank machine options') (hactions : options'.actions = options.actions) :
    (Pairing.mk Eq s s').Matched := by
  show Counterpart Eq s.machine s.options s'.machine s'.options
  rw [h.machine, h.options, h'.machine, h'.options]
  exact counterpart_self machine hactions

/-- Blank services on equal snapshots are twins. -/
theorem Blank.twins {s s' : Service κ} (h : s.Blank machine options)
    (h' : s'.Blank machine options') (hcurrent : s'.current = s.current) :
    (Pairing.mk Eq s s').Twins s s' where
  machine := rfl
  machine' := rfl
  options := rfl
  options' := rfl
  status := by rw [h.status, h'.status]
  current := by
    rw [hcurrent]
    exact s.current.alike_self
  timers := by
    constructor
    case now => exact Nat.add_comm _ _
    case nextId => exact Nat.add_comm _ _
    case pending =>
      rw [h.pending, h'.pending]
      exact .nil
    case deferred =>
      rw [h.deferred, h'.deferred]
      exact .none
  journal := ⟨[], [], (List.append_nil _).symm, (List.append_nil _).symm, .nil⟩

variable [BEq κ]

/-- A session that leaves its service stopped leaves it blank. -/
theorem blank_of_attend {channel : Nat} {calls : List (Call κ)} {b : Switchboard κ} {s : Service κ}
    (h : ((create machine options channel).attend calls b).1 = .completed s)
    (hs : s.status = .stopped) : s.Blank machine options := by
  have hsame := Steps.continues (steps_of_attend h)
  obtain ⟨hpending, hdeferred⟩ := (inStep_of_attend h).stopped hs
  exact ⟨hsame.machine, hsame.options, hs, hpending, hdeferred⟩

/-- Restarting is memoryless, and it does not matter when it happens. Take two services over the
same machine and with the same actions, however long a history each keeps, that were left stopped on
equal snapshots by any two sessions, and do the same operations to both. If neither overflows, then
after any number of them both have the same status and snapshot and equally many timers waiting; they
have called the same actions, guards, conditions and listeners with the same arguments; their clocks
and next deadlines are equally far from where the clocks stood at first, and so are the records that
they have pushed, which tell of the same transitions. -/
theorem sameSince_run {channel channel' : Nat} {past past' : List (Call κ)} {b b' : Switchboard κ}
    {s s' r r' : Service κ}
    (h : ((create machine options channel).attend past b).1 = .completed s)
    (h' : ((create machine options' channel').attend past' b').1 = .completed s')
    (hactions : options'.actions = options.actions)
    (hs : s.status = .stopped) (hs' : s'.status = .stopped) (hcurrent : s'.current = s.current)
    (ops : List Operation) (hr : run ops s = .completed r) (hr' : run ops s' = .completed r') :
    SameSince s s' r r' := by
  have hblank := blank_of_attend h hs
  have hblank' := blank_of_attend h' hs'
  have hends := Pairing.ends_run_twins (hblank.matched hblank' hactions) ops
    (hblank.twins hblank' hcurrent)
  have hsteps := steps_run ops s
  have hsteps' := steps_run ops s'
  rw [hr] at hends hsteps
  rw [hr'] at hends hsteps'
  cases hends with
  | completed htwins => exact htwins.sameSince hsteps hsteps'
  | parted _ hcut =>
    obtain ⟨_, hcut⟩ | ⟨_, hcut⟩ := hcut
    · cases hcut
    · cases hcut

/-- While nothing waits, advancing only moves the clock. -/
theorem advance_of_pending_eq_nil {s : Service κ} {time limit : Duration}
    (h : s.timers.pending = []) (hlimit : s.now.add? time = some limit) :
    s.advance time = .completed (s.setNow limit) := by
  have hpop : s.timers.popDue? limit s.timers.nextId = none := by
    rw [TimerQueue.popDue?, h]
    rfl
  unfold advance
  simp only [hlimit]
  rw [drain_eq]
  simp only [hpop, Outcome.completed_andThen]

/-- A crossing that was on for a while, a second after it was made, and that keeps no history,
restarts as one that is new. -/
theorem sameSince_run_crossing :
    ∃ s s' r r' : Service Nat,
      ((create crossing crossingOptions 0).attend [] {}).1 = .completed s ∧
      ((create crossing { crossingOptions with historyLimit := 0 } 1).attend
        [.operate (.advance ⟨1000000000, by decide⟩), .operate .start, .operate .stop] {}).1 =
          .completed s' ∧
      s.status = .stopped ∧ s'.status = .stopped ∧ s'.current = s.current ∧
      run [.start] s = .completed r ∧ run [.start] s' = .completed r' ∧ SameSince s s' r r' := by
  have hadvanced :
      (create crossing { crossingOptions with historyLimit := 0 } 1).advance
          ⟨1000000000, by decide⟩ =
        .completed ((create crossing { crossingOptions with historyLimit := 0 } 1).setNow
          ⟨1000000000, by decide⟩) :=
    advance_of_pending_eq_nil rfl (by decide)
  -- A crossing has no eventless transitions, so the pass with which a start ends is over at once.
  obtain ⟨s, hpast, hs, hcurrent, r, hr⟩ : ∃ s : Service Nat,
      ((create crossing crossingOptions 0).attend [] {}).1 = .completed s ∧ s.status = .stopped ∧
      s.current = crossing.initialSnapshot ∧ ∃ r, run [.start] s = .completed r :=
    ⟨_, rfl, rfl, rfl, _,
      congrArg (fun o : Outcome Nat => o.andThen (run [])) (settle_of_barren [] rfl)⟩
  obtain ⟨s', hpast', hs', hcurrent', r', hr'⟩ : ∃ s' : Service Nat,
      ((create crossing { crossingOptions with historyLimit := 0 } 1).attend
        [.operate (.advance ⟨1000000000, by decide⟩), .operate .start, .operate .stop] {}).1 =
          .completed s' ∧ s'.status = .stopped ∧
      s'.current = crossing.initialSnapshot ∧ ∃ r', run [.start] s' = .completed r' := by
    rw [attend_fst]
    show ∃ s', run [.advance ⟨1000000000, by decide⟩, .start, .stop] _ = .completed s' ∧ _
    rw [run, apply, hadvanced, Outcome.completed_andThen]
    exact ⟨_, congrArg (fun o : Outcome Nat => o.andThen (run [.stop])) (settle_of_barren [] rfl),
      rfl, rfl, _, congrArg (fun o : Outcome Nat => o.andThen (run [])) (settle_of_barren [] rfl)⟩
  have hsame : s'.current = s.current := hcurrent'.trans hcurrent.symm
  exact ⟨s, s', r, r', hpast, hpast', hs, hs', hsame, hr, hr',
    sameSince_run hpast hpast' rfl hs hs' hsame [.start] hr hr'⟩

end Service
end TimedMachine
