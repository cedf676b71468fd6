import TimedMachine.Proofs.Calls
import TimedMachine.Proofs.Writing

/-!
The protocol of a commit, as the journal tells it. First all delayed transitions are cancelled. Then
the exit actions run, the record is written, and the entry actions and the transition's own actions
run: one list of calls on one event, with one context handed on. Then the listeners are told, once,
and last the delayed transitions of the new state are armed (`ends_commit_protocol`).
-/
namespace TimedMachine

variable {κ : Type}

/-- The timers of delayed transitions that were armed together, in the order of their list. -/
structure Delayed.HaveTimers (ds : List (Delayed κ)) (state : String) (since : Duration)
    (ts : List Timer) : Prop where
  length : ts.length = ds.length
  each : ∃ first, ∀ (i : Nat) (d : Delayed κ), ds[i]? = some d →
    ∃ t, ts[i]? = some t ∧ d.HasTimer state i since first t

theorem Delayed.HaveTimers.isDelayed {ds : List (Delayed κ)} {state : String} {since : Duration}
    {ts : List Timer} (h : HaveTimers ds state since ts) {t : Timer} (ht : t ∈ ts) :
    t.task.isDelayed = true := by
  obtain ⟨first, heach⟩ := h.each
  obtain ⟨i, hi⟩ := List.mem_iff_getElem?.1 ht
  obtain ⟨d, hd⟩ : ∃ d, ds[i]? = some d := by
    have hlt : i < ds.length := h.length ▸ (List.getElem?_eq_some_iff.1 hi).1
    exact ⟨ds[i], List.getElem?_eq_getElem hlt⟩
  obtain ⟨u, hu, hhas⟩ := heach i d hd
  obtain rfl := Option.some.inj (hi.symm.trans hu)
  rw [hhas.task]
  rfl

/-- The record that an entry tells of. -/
def Entry.record? : Entry κ → Option (Record Unit)
  | .committed r => some r
  | _ => none

theorem Entry.record?_of_isDoing (e : Entry κ) (h : e.isDoing = true) : e.record? = none := by
  cases e <;> simp [Entry.isDoing, Entry.record?] at *

namespace Service

theorem sends_armEach (state : String) (index : Nat) (ds : List (Delayed κ)) (s : Service κ) :
    (armEach state index ds s).service.timers.sends = s.timers.sends := by
  induction ds generalizing index s with
  | nil => rfl
  | cons d rest ih =>
    rw [armEach, arm]
    split
    · rfl
    · rename_i harm
      exact (ih _ _).trans (TimerQueue.sends_of_arm? harm rfl)

/-- Only the arming of timers is written while they are armed. -/
theorem adds_armEach {p : Entry κ → Prop} (harmed : ∀ t, p (.armed t)) (state : String)
    (index : Nat) (ds : List (Delayed κ)) (s : Service κ) :
    Adds p s (armEach state index ds s).service := by
  induction ds generalizing index s with
  | nil => exact .refl p s
  | cons d rest ih =>
    rw [armEach, arm]
    split
    · exact .refl p s
    · exact (s.adds_withTimers _ (harmed _)).trans (ih _ _)

/-- What has come of arming the delayed transitions of the current state where none waited. -/
structure Arms (s r : Service κ) (ts : List Timer) : Prop extends s.Arming r where
  timers_of : Delayed.HaveTimers (s.machine.afterOf s.current.value) s.current.value s.now ts
  journal : r.journal = s.journal ++ ts.map .armed
  delayed : ∀ t, t ∈ r.timers.delayed ↔ t ∈ ts
  sends : r.timers.sends = s.timers.sends

theorem ends_armDelayed_arms {s : Service κ} (hnone : s.timers.delayed = []) :
    s.armDelayed.Ends (fun r => ∃ ts, s.Arms r ts)
      (Adds (fun e => e.calling? = none ∧ e.record? = none) s) := by
  have harming := arming_armEach s.current.value 0 (s.machine.afterOf s.current.value) s
  have hsends := sends_armEach s.current.value 0 (s.machine.afterOf s.current.value) s
  have hadds := adds_armEach (p := fun e => e.calling? = none ∧ e.record? = none)
    (fun _ => ⟨rfl, rfl⟩) s.current.value 0 (s.machine.afterOf s.current.value) s
  unfold armDelayed
  cases ho : armEach s.current.value 0 (s.machine.afterOf s.current.value) s with
  | overflowed r =>
    rw [ho] at hadds
    exact hadds
  | completed r =>
    rw [ho] at harming hsends
    obtain ⟨ts, hjournal, hlength, heach, hpending⟩ := armEach_writes ho (Nat.add_zero _).symm
    simp only [Nat.zero_add] at heach
    have htimers : Delayed.HaveTimers (s.machine.afterOf s.current.value) s.current.value s.now ts :=
      ⟨hlength, _, heach⟩
    refine ⟨ts, harming, htimers, hjournal, ?_, hsends⟩
    intro t
    rw [TimerQueue.mem_delayed, hpending t]
    constructor
    · rintro ⟨hold | hnew, htask⟩
      · have hin := TimerQueue.mem_delayed.2 ⟨hold, htask⟩
        rw [hnone] at hin
        cases hin
      · exact hnew
    · exact fun ht => ⟨.inr ht, htimers.isDelayed ht⟩

/-- The functions that a commit calls: those of the exit actions, of the entry actions and of the
transition's own, in this order. -/
def functionsOf (s : Service κ) (target : String) (actions : List (Action κ)) : List (ActionFn κ) :=
  s.options.functions (s.machine.exitOf s.current.value ++ s.machine.entryOf target ++ actions)

/-- The calls of a commit. They hand the context on across the arrival in the target. -/
def callsOfCommit (s : Service κ) (target : String) (actions : List (Action κ)) (event : Event) :
    List (Calling κ) :=
  callsOf event s.current.context (s.functionsOf target actions)

/-- The record of a commit. -/
def recordOf (s : Service κ) (target : String) (event : Event) : Record Unit :=
  ⟨s.current.value, target, event.kind, s.now, ()⟩

/-- What a commit writes before its record: all delayed transitions are cancelled, then the exit
actions run. -/
def Leaves (s : Service κ) (event : Event) (es : List (Entry κ)) : Prop :=
  ∃ exits, es = .cancelled s.timers.delayed :: exits ∧ (∀ e ∈ exits, e.isDoing = true) ∧
    callings exits = callsOf event s.current.context
      (s.options.functions (s.machine.exitOf s.current.value))

/-- What has come of a commit. -/
structure Protocol (target : String) (actions : List (Action κ)) (event : Event)
    (s r : Service κ) : Prop extends s.Follows r where
  /-- The snapshot is one of the target, with the context that all calls together leave. -/
  current : r.current =
    { value := target
      context := contextAfter event s.current.context (s.functionsOf target actions)
      actions
      changed := true }
  /-- One record was added to the history. -/
  history : r.history = s.history.push (s.recordOf target event)
  /-- The cancelling of all delayed transitions, the exit actions, the record, the entry actions and
  the transition's own, the notification, the arming. -/
  entries : ∃ (leaving arrivals : List (Entry κ)) (ts : List Timer),
    r.journal = s.journal ++ leaving ++ .committed (s.recordOf target event) :: arrivals ++
      .notified r.current :: ts.map .armed ∧
    s.Leaves event leaving ∧
    (∀ e ∈ arrivals, e.isDoing = true) ∧
    callings (leaving ++ arrivals) = s.callsOfCommit target actions event ∧
    Delayed.HaveTimers (s.machine.afterOf target) target s.now ts ∧
    ∀ t, t ∈ r.timers.delayed ↔ t ∈ ts
  /-- The deferred event that waited still waits, unless one of the calls asked for a delivery. -/
  defers : s.timers.Defers r.timers
    ((s.callsOfCommit target actions event).filterMap Calling.request?)
  slot : r.timers.Slot

/-- What has come of a commit that was cut short: of its calls the first were made, and no others,
in the exit actions or after the record. -/
inductive ProtocolCut (target : String) (actions : List (Action κ)) (event : Event)
    (s r : Service κ) : Prop
  | leaving {es : List (Entry κ)} (hr : r.journal = s.journal ++ es)
      (hquiet : ∀ e ∈ es, e.record? = none)
      (hcalls : callings es <+: s.callsOfCommit target actions event)
  | arrived {leaving es : List (Entry κ)}
      (hr : r.journal = s.journal ++ leaving ++ .committed (s.recordOf target event) :: es)
      (hleaves : s.Leaves event leaving) (hquiet : ∀ e ∈ es, e.record? = none)
      (hcalls : callings (leaving ++ es) <+: s.callsOfCommit target actions event)

/-- The exit actions have run: what the rest of a commit starts from. -/
abbrev Exits (event : Event) (s r : Service κ) : Prop :=
  Performs event (s.options.functions (s.machine.exitOf s.current.value)) s.cancelDelayed r

/-- The entry actions and the transition's own have run after the arrival in the target. -/
abbrev Enters (target : String) (actions : List (Action κ)) (event : Event)
    (s r : Service κ) : Prop :=
  Performs event (s.options.functions (s.machine.entryOf target ++ actions))
    (s.arrive target actions event) r

section

variable {target : String} {actions : List (Action κ)} {event : Event} {s r : Service κ}

theorem journal_cancelDelayed (s : Service κ) :
    s.cancelDelayed.journal = s.journal ++ [.cancelled s.timers.delayed] :=
  s.journal_withTimers _ _

theorem Exits.leaves (h : Exits event s r) :
    ∃ leaving, r.journal = s.journal ++ leaving ∧ s.Leaves event leaving := by
  obtain ⟨exits, hr, hcalls, hdoing⟩ := h.calls
  exact ⟨_, by simp [hr, journal_cancelDelayed], exits, rfl, hdoing, hcalls⟩

theorem Exits.recordOf_eq (h : Exits event s r) : r.recordOf target event = s.recordOf target event := by
  have hvalue : r.current.value = s.current.value := h.value
  have hnow : r.now = s.now := h.timers.now
  rw [recordOf, recordOf, hvalue, hnow]

theorem Exits.journal_arrive (h : Exits event s r) :
    (r.arrive target actions event).journal =
      r.journal ++ [.committed (s.recordOf target event)] := by
  rw [← h.recordOf_eq]
  exact r.journal_arrive _ _ _

/-- What is called after the exit actions. -/
theorem Exits.functionsOf_eq (h : Exits event s r) :
    s.functionsOf target actions = s.options.functions (s.machine.exitOf s.current.value) ++
      r.options.functions (r.machine.entryOf target ++ actions) := by
  have hmachine : r.machine = s.machine := h.machine
  have hoptions : r.options = s.options := h.options
  rw [functionsOf, hmachine, hoptions, List.append_assoc]
  exact List.filterMap_append

theorem Exits.callsOfCommit_eq (h : Exits event s r) :
    s.callsOfCommit target actions event =
      callsOf event s.current.context (s.options.functions (s.machine.exitOf s.current.value)) ++
        callsOf event r.current.context (r.options.functions (r.machine.entryOf target ++ actions)) := by
  have hcontext : r.current.context = contextAfter event s.current.context _ := h.context
  rw [callsOfCommit, h.functionsOf_eq, callsOf_append, hcontext]

/-- A commit may be cut short in the exit actions. -/
theorem protocolCut_of_exits
    (h : Attempts event (s.options.functions (s.machine.exitOf s.current.value)) s.cancelDelayed r) :
    ProtocolCut target actions event s r := by
  obtain ⟨calls, ⟨es, hr, hcalls, hdoing⟩, hpre⟩ := h
  have hquiet : ∀ e ∈ .cancelled s.timers.delayed :: es, e.record? = none :=
    List.forall_mem_cons.2 ⟨rfl, fun e he => e.record?_of_isDoing (hdoing e he)⟩
  refine .leaving (by simp [hr, journal_cancelDelayed]) hquiet ?_
  have hmade : callings (.cancelled s.timers.delayed :: es) = calls := hcalls
  have hall : s.functionsOf target actions =
      s.options.functions (s.machine.exitOf s.current.value) ++
        s.options.functions (s.machine.entryOf target ++ actions) := by
    rw [functionsOf, List.append_assoc]
    exact List.filterMap_append
  rw [hmade, callsOfCommit, hall, callsOf_append]
  exact hpre.trans (List.prefix_append _ _)

/-- A commit may be cut short after the arrival, having made all calls before it. -/
theorem Exits.protocolCut (h : Exits event s r) {u : Service κ} {es : List (Entry κ)}
    (hu : u.journal = (r.arrive target actions event).journal ++ es)
    (hquiet : ∀ e ∈ es, e.record? = none)
    (hpre : callings es <+: callsOf event r.current.context
      (r.options.functions (r.machine.entryOf target ++ actions))) :
    ProtocolCut target actions event s u := by
  obtain ⟨leaving, hleft, hleaves⟩ := h.leaves
  have ⟨exits, hexits, _, hcalls⟩ := hleaves
  refine .arrived ?_ hleaves hquiet ?_
  · rw [hu, h.journal_arrive, hleft]
    simp
  · have hmade : callings (leaving ++ es) = callings exits ++ callings es := by
      rw [hexits]
      exact callings_append exits es
    rw [hmade, hcalls, h.callsOfCommit_eq]
    exact (List.prefix_append_right_inj _).2 hpre

theorem Enters.current_eq {u : Service κ} (h : Exits event s r)
    (k : Enters target actions event r u) : u.current =
      { value := target
        context := contextAfter event s.current.context (s.functionsOf target actions)
        actions
        changed := true } := by
  have hexits : r.current.context = contextAfter event s.current.context _ := h.context
  have hcontext : u.current.context = contextAfter event r.current.context _ := k.context
  have hvalue : u.current.value = target := k.value
  have hactions : u.current.actions = actions := k.actions
  have hchanged : u.current.changed = true := k.changed
  rw [h.functionsOf_eq, contextAfter_append, ← hexits, ← hcontext, ← hvalue, ← hactions, ← hchanged]

/-- The parts of a commit that completes, put together. -/
theorem protocol_of_parts {u w : Service κ} {ts : List Timer} (hs : s.timers.Slot)
    (h : Exits event s r) (k : Enters target actions event r u) (harms : u.notify.Arms w ts) :
    Protocol target actions event s w := by
  obtain ⟨leaving, hleft, hleaves⟩ := h.leaves
  obtain ⟨arrivals, harrived, hcalls, hdoing⟩ := k.calls
  have hcurrent : w.current = _ := (show w.current = u.current from harms.current).trans
    (Enters.current_eq h k)
  have hslot : u.timers.Slot := k.slot (h.slot hs.cancelDelayed)
  have hnow : u.now = s.now := k.timers.now.trans h.timers.now
  have hmachine : u.machine = s.machine := k.machine.trans h.machine
  have hvalue : u.current.value = target := k.value
  refine ⟨?_, hcurrent, ?_, ⟨leaving, arrivals, ts, ?_, hleaves, hdoing, ?_, ?_, harms.delayed⟩, ?_,
    harms.slot hslot⟩
  · exact (((s.follows_cancelDelayed.trans h.toFollows).trans (r.follows_arrive _ _ _)).trans
      k.toFollows).trans ((u.follows_log _).trans harms.toFollows)
  · have hpushed : r.history = s.history := h.history
    have hkept : u.history = r.history.push (r.recordOf target event) := k.history
    rw [show w.history = u.history from harms.history, hkept, hpushed, h.recordOf_eq]
  · have hnotified : u.notify.journal = u.journal ++ [.notified w.current] := by
      rw [show w.current = u.current from harms.current]
      exact u.journal_log _
    rw [harms.journal, hnotified, harrived, h.journal_arrive, hleft]
    simp
  · obtain ⟨exits, rfl, _, hexits⟩ := hleaves
    rw [callings_append, hcalls, h.callsOfCommit_eq, ← hexits]
    rfl
  · have hof := harms.timers_of
    rw [show u.notify.machine = s.machine from hmachine, show u.notify.now = s.now from hnow,
      show u.notify.current.value = target from hvalue] at hof
    exact hof
  · have hboth := TimerQueue.Defers.append h.defers k.defers h.timers.now
    rw [← List.filterMap_append] at hboth
    rw [h.callsOfCommit_eq]
    exact hboth.of_eq s.timers.sends_cancelDelayed.symm rfl harms.sends

end

theorem callings_eq_nil {es : List (Entry κ)} (h : ∀ e ∈ es, e.calling? = none) :
    callings es = [] := List.filterMap_eq_nil_iff.2 h

theorem ends_enters (target : String) (actions : List (Action κ)) (event : Event) {s : Service κ}
    (hs : s.timers.Slot) :
    ((execute event (s.machine.entryOf target) (s.arrive target actions event)).andThen
        fun u => execute event u.current.actions u).Ends
      (Enters target actions event s)
      (Attempts event (s.options.functions (s.machine.entryOf target ++ actions))
        (s.arrive target actions event)) := by
  have hall : s.options.functions (s.machine.entryOf target ++ actions) =
      s.options.functions (s.machine.entryOf target) ++ s.options.functions actions :=
    List.filterMap_append
  have hentry := ends_execute_performs event (s.machine.entryOf target)
    (s := s.arrive target actions event) hs
  unfold Enters
  rw [hall]
  refine (hentry.imp (fun _ h => h) fun _ h => h.append _).andThen fun u hu => ?_
  have hoptions : u.options = s.options := hu.options
  have hactions : u.current.actions = actions := hu.actions
  have hown := ends_execute_performs event u.current.actions (hu.slot hs)
  rw [hoptions, hactions] at hown
  rw [hactions]
  exact hown.imp (fun _ h => hu.append h) (fun _ h => hu.attempts h)

/-- A commit in three parts. -/
theorem commit_eq (target : String) (actions : List (Action κ)) (event : Event) (s : Service κ) :
    s.commit target actions event =
      (execute event (s.machine.exitOf s.current.value) s.cancelDelayed).andThen fun r =>
        ((execute event (r.machine.entryOf target) (r.arrive target actions event)).andThen
          fun u => execute event u.current.actions u).andThen fun v => v.notify.armDelayed := by
  simp only [commit, Outcome.andThen_assoc]

/-- A commit keeps to its protocol, whatever its actions do. -/
theorem ends_commit_protocol (target : String) (actions : List (Action κ)) (event : Event)
    {s : Service κ} (hs : s.timers.Slot) :
    (s.commit target actions event).Ends (Protocol target actions event s)
      (ProtocolCut target actions event s) := by
  rw [commit_eq]
  have hexits := ends_execute_performs event (s.machine.exitOf s.current.value)
    (s := s.cancelDelayed) hs.cancelDelayed
  refine (hexits.imp (fun _ h => h) fun _ h => protocolCut_of_exits h).andThen fun r hr => ?_
  have hslot : r.timers.Slot := hr.slot hs.cancelDelayed
  have henters := ends_enters target actions event hslot
  refine (henters.imp (fun _ h => h) ?_).andThen fun u hu => ?_
  · rintro u ⟨calls, ⟨es, hu, rfl, hdoing⟩, hpre⟩
    exact Exits.protocolCut hr hu (fun e he => e.record?_of_isDoing (hdoing e he)) hpre
  have hbare : u.notify.timers.delayed = [] := by
    have hnone : r.timers.delayed = [] :=
      (hr.delayed hs.cancelDelayed).trans (TimerQueue.delayed_cancelDelayed _)
    exact (hu.delayed hslot).trans hnone
  refine (ends_armDelayed_arms hbare).imp ?_ ?_
  · rintro w ⟨ts, harms⟩
    exact protocol_of_parts hs hr hu harms
  · rintro w ⟨armed, hw, harmed⟩
    obtain ⟨es, hes, hcalls, hdoing⟩ := hu.calls
    have htold : ∀ e ∈ Entry.notified u.current :: armed, e.calling? = none ∧ e.record? = none :=
      List.forall_mem_cons.2 ⟨⟨rfl, rfl⟩, harmed⟩
    have hnone : callings (.notified u.current :: armed) = [] :=
      callings_eq_nil fun e he => (htold e he).1
    have hjournal : w.journal = (r.arrive target actions event).journal ++
        (es ++ .notified u.current :: armed) := by simp [hw, notify, hes]
    refine Exits.protocolCut hr hjournal ?_ ?_
    · intro e he
      rcases List.mem_append.1 he with he | he
      · exact e.record?_of_isDoing (hdoing e he)
      · exact (htold e he).2
    · rw [callings_append, hcalls, hnone, List.append_nil]
      exact List.prefix_refl _

/-- One record was written, behind what is written on leaving. -/
def Inscribes (target : String) (event : Event) (s r : Service κ) : Prop :=
  ∃ leaving rest, r.journal = s.journal ++ leaving ++ .committed (s.recordOf target event) :: rest ∧
    s.Leaves event leaving ∧ ∀ e ∈ rest, e.record? = none

theorem Protocol.inscribes {target : String} {actions : List (Action κ)} {event : Event}
    {s r : Service κ} (h : Protocol target actions event s r) : Inscribes target event s r := by
  obtain ⟨leaving, arrivals, ts, hr, hleaves, hdoing, _⟩ := h.entries
  refine ⟨leaving, arrivals ++ .notified r.current :: ts.map .armed, by simp [hr], hleaves, ?_⟩
  intro e he
  simp only [List.mem_append, List.mem_cons, List.mem_map] at he
  rcases he with he | rfl | ⟨t, _, rfl⟩
  · exact e.record?_of_isDoing (hdoing e he)
  · rfl
  · rfl

theorem ProtocolCut.inscribes {target : String} {actions : List (Action κ)} {event : Event}
    {s r : Service κ} (h : ProtocolCut target actions event s r) :
    Inscribes target event s r ∨ Adds (fun e => e.record? = none) s r := by
  cases h with
  | leaving hr hquiet _ => exact .inr ⟨_, hr, hquiet⟩
  | arrived hr hleaves hquiet _ => exact .inl ⟨_, _, hr, hleaves, hquiet⟩

/-- A commit writes one record, behind what it writes on leaving, unless it is cut short there. -/
theorem commit_writes (target : String) (actions : List (Action κ)) (event : Event)
    {s : Service κ} (hs : s.timers.Slot) :
    Inscribes target event s (s.commit target actions event).service ∨
      Adds (fun e => e.record? = none) s (s.commit target actions event).service := by
  have hends := ends_commit_protocol target actions event hs
  cases ho : s.commit target actions event with
  | completed r =>
    rw [ho] at hends
    exact .inl (Protocol.inscribes hends)
  | overflowed r =>
    rw [ho] at hends
    exact ProtocolCut.inscribes hends

end Service
end TimedMachine
