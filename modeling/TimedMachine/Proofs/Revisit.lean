import TimedMachine.Proofs.Delivery
import TimedMachine.Proofs.Passes
import TimedMachine.Proofs.Requests

/-!
An event that stays in its state. The deferred event is cleared, then the handler's actions run one
after the other on one context, and nothing else is done: the state is neither left nor entered, and no
eventless transition is looked for. Whether the listeners are told depends on the first and the last
context alone, not on those in between (`revisits_send`).
-/
namespace TimedMachine

variable {κ : Type}

/-- Deliveries were asked for in turn at one clock reading, and none waited before: the last of them
waits in the end, and the queue knows of it; or none does. -/
def TimerQueue.Holds (q : TimerQueue) (clock : Duration) (requests : List (Event × Duration)) : Prop :=
  match requests.getLast? with
  | none => q.sends = [] ∧ q.deferred = none
  | some (later, delay) => ∃ t, q.sends = [t] ∧ q.deferred = some t.key ∧
      t.task = .deferred later ∧ clock.add? delay = some t.key.deadline

/-- The queue knows of no deferred event if none waits. -/
theorem TimerQueue.Slot.deferred_eq_none {q : TimerQueue} (h : q.Slot) (hnone : q.sends = []) :
    q.deferred = none := by
  refine Option.eq_none_iff_forall_ne_some.2 fun key hkey => ?_
  obtain ⟨t, ht, _, htask⟩ := (h.known key).1 hkey
  have hin : t ∈ q.sends := TimerQueue.mem_sends.2 ⟨ht, htask⟩
  rw [hnone] at hin
  cases hin

theorem TimerQueue.Defers.holds {q r : TimerQueue} {requests : List (Event × Duration)}
    (h : q.Defers r requests) (hnone : q.sends = []) (hr : r.Slot) : r.Holds q.now requests := by
  unfold Defers at h
  unfold Holds
  cases hlast : requests.getLast? with
  | none =>
    rw [hlast] at h
    have hsends : r.sends = [] := h.trans hnone
    exact ⟨hsends, hr.deferred_eq_none hsends⟩
  | some request =>
    rw [hlast] at h
    obtain ⟨t, hsends, htask, hdeadline⟩ := h
    have hin : t ∈ r.sends := by
      rw [hsends]
      exact List.mem_cons_self
    obtain ⟨hpending, hkind⟩ := TimerQueue.mem_sends.1 hin
    exact ⟨t, hsends, (hr.known t.key).2 ⟨t, hpending, rfl, hkind⟩, htask, hdeadline⟩

theorem Entry.ne_notified_of_isDoing {e : Entry κ} (h : e.isDoing = true) (snapshot : Snapshot κ) :
    e ≠ .notified snapshot := by
  rintro rfl
  cases h

namespace Service

/-- What an event that stays in the state leaves alone. -/
structure Lingers (s r : Service κ) : Prop extends s.Follows r where
  value : r.current.value = s.current.value
  now : r.now = s.now
  history : r.history = s.history
  delayed : r.timers.delayed = s.timers.delayed

/-- The functions that the handler's actions stand for, called in turn. -/
abbrev callsOfHandler (event : Event) (actions : List (Action κ)) (s : Service κ) :
    List (Calling κ) :=
  callsOf event s.current.context (s.options.functions actions)

/-- The context that the handler's actions leave. -/
abbrev contextOfHandler (event : Event) (actions : List (Action κ)) (s : Service κ) : Option κ :=
  contextAfter event s.current.context (s.options.functions actions)

/-- What has come of an event that stays in the state. -/
structure Revisits [BEq κ] (event : Event) (actions : List (Action κ)) (s r : Service κ) :
    Prop extends s.Lingers r where
  /-- The snapshot counts as changed exactly if its context is not equal in the end to what it was. -/
  current : r.current =
    { value := s.current.value
      context := s.contextOfHandler event actions
      actions
      changed := s.contextOfHandler event actions != s.current.context }
  deferred : r.timers.Holds s.now ((s.callsOfHandler event actions).filterMap Calling.request?)
  /-- The clearing of the deferred event, the guard, the actions, and the notification, if there is
  one. -/
  entries : ∃ asked doing,
    r.journal = s.journal ++ .cancelled s.timers.sends :: (asked ++ doing ++
      if r.current.changed then [.notified r.current] else []) ∧
    s.Queried event asked ∧ (∀ e ∈ doing, e.isDoing = true) ∧
    callings doing = s.callsOfHandler event actions

/-- What has come of one that was cut short: an action asked for a delivery for which the clock has no
deadline. -/
structure RevisitCut (event : Event) (actions : List (Action κ)) (s r : Service κ) : Prop
    extends s.Lingers r where
  entries : ∃ asked doing,
    r.journal = s.journal ++ .cancelled s.timers.sends :: (asked ++ doing) ∧
    s.Queried event asked ∧ (∀ e ∈ doing, e.isDoing = true) ∧
    callings doing <+: s.callsOfHandler event actions ∧
    ∃ last request, (callings doing).getLast? = some last ∧ last.request? = some request ∧
      s.now.add? request.2 = none

/-- A call of an action that is cut short has asked for a delivery, for which the clock has no
deadline. -/
theorem asking_of_perform {run : ActionFn κ} {event : Event} {s u : Service κ}
    (h : s.perform run event = .overflowed u) :
    ∃ ts request, u.journal = s.journal ++ [.called run s.current.context event, .cancelled ts] ∧
      Calling.request? ⟨run, s.current.context, event⟩ = some request ∧
      s.now.add? request.2 = none := by
  obtain ⟨request, hrequest⟩ :
      ∃ request, Calling.request? ⟨run, s.current.context, event⟩ = some request := by
    unfold perform at h
    cases heffect : (run s.current.context event).effect with
    | done => simp [heffect] at h
    | assign update => simp [heffect] at h
    | send later delay => exact ⟨(later, delay), by simp [Calling.request?, heffect]⟩
  have hasks := asks_perform hrequest
  rw [h] at hasks
  obtain ⟨hnone, ts, hu⟩ := hasks
  exact ⟨ts, request, hu, hrequest, hnone⟩

/-- Running actions is cut short only by such a call, which is then the last. -/
theorem ends_execute_asking (event : Event) (actions : List (Action κ)) (s : Service κ) :
    (execute event actions s).Ends (fun _ => True) fun r =>
      ∃ new last request, r.journal = s.journal ++ new ∧ (callings new).getLast? = some last ∧
        last.request? = some request ∧ s.now.add? request.2 = none := by
  induction actions generalizing s with
  | nil => trivial
  | cons action rest ih =>
    rw [execute]
    cases s.options.resolve action with
    | none =>
      refine (ih _).imp (fun _ h => h) ?_
      rintro r ⟨new, last, request, hr, hlast, hrequest, hnone⟩
      refine ⟨.unresolved (action.name?.getD "") :: new, last, request, ?_, hlast, hrequest, hnone⟩
      rw [hr, journal_log, List.append_assoc]
      rfl
    | some run =>
      have hstays := s.stays_perform run event
      dsimp only
      cases hperform : s.perform run event with
      | overflowed u =>
        obtain ⟨ts, request, hu, hrequest, hnone⟩ := asking_of_perform hperform
        exact ⟨_, _, request, hu, rfl, hrequest, hnone⟩
      | completed u =>
        rw [hperform] at hstays
        obtain ⟨first, hu, _⟩ := hstays.entries
        have hu : u.journal = s.journal ++ first := hu
        have hnow : u.now = s.now := hstays.timers.now
        refine (ih u).imp (fun _ h => h) ?_
        rintro r ⟨new, last, request, hr, hlast, hrequest, hnone⟩
        refine ⟨first ++ new, last, request, ?_, ?_, hrequest, hnow ▸ hnone⟩
        · rw [hr, hu, List.append_assoc]
        · rw [callings_append, List.getLast?_append, hlast]
          rfl

section

variable {event : Event} {next : Snapshot κ} {s c r : Service κ}

/-- Nothing more is touched once the snapshot is taken up and the actions run. -/
theorem Considers.lingers (h : s.Considers event c) (hs : s.timers.Slot)
    (hvalue : next.value = s.current.value) (hr : (c.withCurrent next).Stays r) : s.Lingers r where
  toFollows := (h.toFollows.trans (follows_withCurrent next c)).trans hr.toFollows
  value := hr.value.trans hvalue
  now := hr.timers.now.trans h.timers.now
  history := hr.history.trans h.history
  delayed := by
    have hslot : c.timers.Slot := h.timers_eq ▸ hs.cancelDeferred
    have hcleared : c.timers.delayed = s.timers.delayed := by
      rw [h.timers_eq, hs.delayed_cancelDeferred]
    exact (hr.delayed hslot).trans hcleared

variable [BEq κ]

/-- The actions have run; what is left is to compare the contexts. -/
theorem Considers.revisits (h : s.Considers event c) (hs : s.timers.Slot)
    (hvalue : next.value = s.current.value) (hcontext : next.context = s.current.context)
    (hsame : next.changed = false)
    (hr : Performs event (s.options.functions next.actions) (c.withCurrent next) r) :
    Outcome.Ends
      (if r.current.context == c.current.context then .completed r
        else .completed (r.withCurrent { r.current with changed := true }).notify)
      (Revisits event next.actions s) (RevisitCut event next.actions s) := by
  have hlingers := h.lingers hs hvalue hr.toStays
  obtain ⟨asked, hc, hasked⟩ := h.entries
  obtain ⟨doing, hrun, hcalls, hdoing⟩ := hr.calls
  rw [show (c.withCurrent next).current.context = s.current.context from hcontext] at hcalls
  have hwrote : r.journal = s.journal ++ .cancelled s.timers.sends :: (asked ++ doing) := by
    rw [hrun, show (c.withCurrent next).journal = _ from hc, List.append_assoc]
    rfl
  have hleft : r.current.context = s.contextOfHandler event next.actions := by
    rw [hr.context, show (c.withCurrent next).current.context = s.current.context from hcontext]
  have hlast : r.current =
      { value := s.current.value
        context := s.contextOfHandler event next.actions
        actions := next.actions
        changed := false } := by
    have hactions : r.current.actions = next.actions := hr.actions
    have hflag : r.current.changed = false := hr.changed.trans hsame
    rw [← hlingers.value, ← hleft, ← hactions, ← hflag]
  have hholds : r.timers.Holds s.now
      ((s.callsOfHandler event next.actions).filterMap Calling.request?) := by
    have hnone : c.timers.sends = [] := by rw [h.timers_eq, hs.sends_cancelDeferred]
    have hslot : c.timers.Slot := h.timers_eq ▸ hs.cancelDeferred
    have hholds := hr.defers.holds hnone (hr.slot hslot)
    rw [show (c.withCurrent next).current.context = s.current.context from hcontext] at hholds
    rwa [show (c.withCurrent next).timers.now = s.now from h.timers.now] at hholds
  rw [h.current, hleft]
  split
  case isTrue heq =>
    refine ⟨hlingers, ?_, hholds, asked, doing, ?_, hasked, hdoing, hcalls⟩
    · simp [hlast, bne, heq]
    · simp [hwrote, hlast]
  case isFalse hne =>
    let told := (r.withCurrent { r.current with changed := true }).notify
    have htold : told.current = { r.current with changed := true } := rfl
    have hfollows : r.Follows told := (follows_withCurrent _ r).trans (follows_log _ _)
    refine ⟨?_, ?_, hholds, asked, doing, ?_, hasked, hdoing, hcalls⟩
    · exact ⟨hlingers.toFollows.trans hfollows, hlingers.value, hlingers.now, hlingers.history,
        hlingers.delayed⟩
    · rw [htold, hlast]
      simp [bne, hne]
    · have hjournal : told.journal = r.journal ++ [.notified told.current] := journal_log _ _
      rw [hjournal, hwrote, htold]
      simp

theorem ends_stay_revisits (h : s.Considers event c) (hs : s.timers.Slot)
    (hvalue : next.value = s.current.value) (hcontext : next.context = s.current.context)
    (hsame : next.changed = false) :
    (c.stay next event).Ends (Revisits event next.actions s) (RevisitCut event next.actions s) := by
  have hslot : c.timers.Slot := h.timers_eq ▸ hs.cancelDeferred
  have hoptions : (c.withCurrent next).options = s.options := h.options
  have hperforms := ends_execute_performs event next.actions (s := c.withCurrent next) hslot
  have hasking := ends_execute_asking event next.actions (c.withCurrent next)
  have hstays := Outcome.ends_of_service (stays_execute event next.actions (c.withCurrent next))
  rw [hoptions] at hperforms
  refine (((hperforms.and hasking).and hstays).imp (fun _ h => h.1.1) ?_).andThen fun r hr => ?_
  · rintro r ⟨⟨⟨calls, ⟨doing, hrun, rfl, hdoing⟩, hpre⟩, new, last, request, hnew, hlast, hrequest,
      hnone⟩, hr⟩
    obtain rfl := List.append_cancel_left (hrun.symm.trans hnew)
    obtain ⟨asked, hc, hasked⟩ := h.entries
    rw [show (c.withCurrent next).current.context = s.current.context from hcontext] at hpre
    rw [show (c.withCurrent next).now = s.now from h.timers.now] at hnone
    refine ⟨h.lingers hs hvalue hr, asked, doing, ?_, hasked, hdoing, hpre, last, request, hlast,
      hrequest, hnone⟩
    rw [hrun, show (c.withCurrent next).journal = _ from hc, List.append_assoc]
    rfl
  · exact h.revisits hs hvalue hcontext hsame hr

/-- A delivery that leads back to the state is spent in it. -/
theorem ends_deliver_revisits (hs : s.timers.Slot)
    (hnext : s.machine.transition? (.snapshot s.current) event = some next)
    (hsame : next.changed = false) :
    (s.deliver event).Ends (Revisits event next.actions s) (RevisitCut event next.actions s) := by
  have hvalue := Machine.value_of_transition? hnext hsame
  obtain ⟨_, hcontext, _⟩ := Machine.handles_of_transition? hnext
  rw [deliver_eq, hnext]
  dsimp only
  rw [proceed, if_neg (Bool.eq_false_iff.1 hsame)]
  exact ends_stay_revisits (considers_consider event hs) hs hvalue hcontext hsame

/-- What is heard of an event that was sent and stays in the state: the notes of the guard and of the
actions, then the notification, if there is one. -/
theorem Revisits.relay {actions : List (Action κ)}
    (h : (s.log (.accepted event)).Revisits event actions r) (channel : Nat)
    (board : Switchboard κ) :
    ∃ notes : List (Note κ), Switchboard.relay channel (r.since s) board =
      if r.current.changed then
        ((board.announce channel r.current).1,
          notes.map .note ++ (board.announce channel r.current).2)
      else (board, notes.map .note) := by
  obtain ⟨asked, doing, hr, hasked, hdoing, _⟩ := h.entries
  let quiet := .accepted event :: .cancelled s.timers.sends :: (asked ++ doing)
  have hquiet : ∀ e ∈ quiet, ∀ snapshot, e ≠ .notified snapshot := by
    intro e he snapshot
    simp only [quiet, List.mem_cons, List.mem_append] at he
    rcases he with rfl | rfl | he | he
    · simp
    · simp
    · obtain ⟨guard, rfl⟩ := hasked.eq_judged he
      simp
    · exact e.ne_notified_of_isDoing (hdoing e he) snapshot
  have hwrote : r.since s = quiet ++ if r.current.changed then [.notified r.current] else [] := by
    refine since_eq_of_append ?_
    rw [hr, journal_log, List.append_assoc]
    rfl
  refine ⟨quiet.flatMap Entry.notes, ?_⟩
  rw [hwrote]
  split
  · exact Switchboard.relay_concat_notified channel hquiet r.current board
  · rw [List.append_nil]
    exact Switchboard.relay_of_unnotified channel hquiet board

end

variable [BEq κ]

/-- Coming back to the state. At any moment of any session, let the service run and an event lead to a
snapshot that does not count as changed. Its handler then leads to the state itself, and sending the
event keeps the state, the clock, the history and every delayed transition that waits. The deferred
event is cleared, the guard is asked, if there is one, and the handler's actions are called in order on
one event, with one context handed on; no other action is called, and no condition is asked. Of the
deliveries that they ask for the last one waits in the end, and no other. The snapshot has the handler's
actions, and counts as changed exactly if the context is not what it was before the event. Then the
listeners are told of it once, after everything else, and otherwise not at all. The event is cut short
only by an action that asks for a delivery past the end of the clock. -/
theorem revisits_send (machine : Machine κ) (options : Options κ) (channel : Nat) {s : Service κ}
    {event : Event} {next : Snapshot κ} (hs : Steps (create machine options channel) s)
    (hrunning : s.status = .running)
    (hnext : s.machine.transition? (.snapshot s.current) event = some next)
    (hsame : next.changed = false) :
    (∃ guard, s.machine.Handles s.current.value event.kind s.current.value next.actions guard) ∧
    (s.send event).Ends (Revisits event next.actions (s.log (.accepted event)))
      (RevisitCut event next.actions (s.log (.accepted event))) ∧
    ∀ r board, s.send event = .completed r → ∃ notes : List (Note κ),
      s.conduct (.send event) board =
        if r.current.changed then
          (.completed r, (board.announce s.channel r.current).1,
            notes.map .note ++ (board.announce s.channel r.current).2)
        else (.completed r, board, notes.map .note) := by
  have hslot : s.timers.Slot := Steps.slot hs TimerQueue.slot_empty
  have hsend : s.send event = (s.log (.accepted event)).deliver event :=
    if_pos (isRunning_iff.2 hrunning)
  have hends := ends_deliver_revisits (s := s.log (.accepted event)) hslot hnext hsame
  rw [← hsend] at hends
  refine ⟨?_, hends, fun r board hr => ?_⟩
  · obtain ⟨hhandles, _⟩ := Machine.handles_of_transition? hnext
    rwa [Machine.value_of_transition? hnext hsame] at hhandles
  · rw [hr] at hends
    obtain ⟨notes, hnotes⟩ := Revisits.relay hends s.channel board
    refine ⟨notes, ?_⟩
    rw [conduct, show s.apply (.send event) = _ from hr, Outcome.service_completed, hnotes]
    split <;> rfl

end Service

/-- A counter that goes up and down again on every tick, asks for another one, and goes off after five
nanoseconds. -/
def counter : Machine Nat where
  context := some 0
  states := .ofList
    [("on", {
        on := .ofList
          [("tick", .described { actions :=
            [.direct fun _ _ => ⟨.assign (· + 1), []⟩, .named "nothing",
              .direct fun _ _ => ⟨.assign (· - 1), []⟩,
              .direct fun _ event => ⟨.send event ⟨3, by decide⟩, []⟩] })]
        after := [⟨⟨5, by decide⟩, "off", []⟩] }),
      ("off", {})]

/-- A service that has just been started on the counter. -/
def counting : Service Nat :=
  (({ Service.create counter {} 0 with status := .running } : Service Nat).log
    (.started .zero)).armDelayed.service

namespace Service

theorem attend_counter :
    (attend [.operate .start] (create counter {} 0) {}).1 = .completed counting := by
  have hstart : (create counter {} 0).start = .completed counting := settle_of_barren [] rfl
  exact attend_start hstart {}

/-- A tick leaves the counter where it was, and nobody is told of the way there. -/
theorem revisits_send_counter :
    ∃ r, counting.send ⟨"tick", .null⟩ = .completed r ∧ r.current.context = some 0 ∧
      r.current.changed = false ∧ r.timers.delayed = counting.timers.delayed ∧
      ∀ board, ∃ notes : List (Note Nat),
        counting.conduct (.send ⟨"tick", .null⟩) board = (.completed r, board, notes.map .note) := by
  obtain ⟨next, hnext, hsame⟩ :
      ∃ next, counter.transition? (.snapshot counting.current) ⟨"tick", .null⟩ = some next ∧
        next.changed = false := ⟨_, rfl, rfl⟩
  obtain ⟨r, hr, hcontext, hchanged⟩ :
      ∃ r, counting.send ⟨"tick", .null⟩ = .completed r ∧ r.current.context = some 0 ∧
        r.current.changed = false := ⟨_, rfl, rfl, rfl⟩
  obtain ⟨_, hends, hheard⟩ :=
    revisits_send counter {} 0 (steps_of_attend attend_counter) rfl hnext hsame
  rw [hr] at hends
  refine ⟨r, hr, hcontext, hchanged, hends.delayed, fun board => ?_⟩
  obtain ⟨notes, hnotes⟩ := hheard r board hr
  rw [hchanged] at hnotes
  exact ⟨notes, hnotes⟩

end Service
end TimedMachine
