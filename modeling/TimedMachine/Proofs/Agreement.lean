import TimedMachine.Proofs.Stay
import TimedMachine.Session

/-!
The timer queue of a service agrees with its snapshot after every session that completes
(`inStep_attend`), so that a delayed transition that fires always finds its state current and itself
in the state's list. Other properties of what a service has done can lean on the agreement: it is
enough to show that they last (`Lasts.ends_run`).
-/
namespace TimedMachine

variable {κ : Type}

/-- A delayed transition only lapses for want of another declared state to go to. -/
def Entry.Timely (e : Entry κ) : Prop :=
  ∀ t why, e = .lapsed t why → why = .ownState ∨ why = .undeclared

theorem Entry.Timely.of_isTurn {e : Entry κ} (h : e.isTurn = false) : e.Timely := by
  rintro t why rfl
  cases h

namespace Service

/-- The queue agrees with the snapshot: nothing waits while the service is stopped, and while it runs
the delayed transitions that wait are those of the current state. -/
structure InStep (s : Service κ) : Prop where
  stopped : s.status = .stopped → s.timers.pending = [] ∧ s.timers.deferred = none
  running : s.status = .running → ∃ since, s.entered? = some since ∧
    s.timers.Serves s.machine s.current.value since
  slot : s.timers.Slot

theorem InPlace.inStep {s : Service κ} (h : s.InPlace) (hs : s.status = .running) : s.InStep where
  stopped hstopped := by
    rw [hs] at hstopped
    cases hstopped
  running _ := h.serves
  slot := h.slot

theorem InStep.inPlace {s : Service κ} (h : s.InStep) (hs : s.status = .running) : s.InPlace :=
  ⟨h.slot, h.running hs⟩

/-- A service on which a timer fires is running. -/
theorem InStep.running_of_popDue? {s : Service κ} (h : s.InStep) {limit : Duration} {horizon : Nat}
    {t : Timer} {timers : TimerQueue} (hpop : s.timers.popDue? limit horizon = some (t, timers)) :
    s.status = .running := by
  cases hs : s.status with
  | running => rfl
  | stopped =>
    have hq := (TimerQueue.popDue?_eq_some hpop).1
    rw [(h.stopped hs).1] at hq
    cases hq

theorem InStep.log {s : Service κ} (h : s.InStep) {e : Entry κ} (hentered : e.entered? = none) :
    (s.log e).InStep where
  stopped := h.stopped
  running hs := by
    obtain ⟨since, hsince, hserves⟩ := h.running hs
    refine ⟨since, ?_, hserves⟩
    rw [entered?_append (s.journal_log e), hentered, Option.none_or, hsince]
  slot := h.slot

theorem InStep.setNow {s : Service κ} (h : s.InStep) (now : Duration) : (s.setNow now).InStep where
  stopped := h.stopped
  running hs := by
    obtain ⟨since, hsince, hserves⟩ := h.running hs
    refine ⟨since, hsince, hserves.of_delayed ?_ rfl⟩
    show s.timers.now ≤ s.timers.now.later now
    rw [Duration.le_def, Duration.nanos_later]
    omega
  slot := h.slot.setNow now

/-- A service that was stopped and begins to run has nothing of its own waiting, and is in its state
from now on. -/
theorem InStep.fresh {s : Service κ} (h : s.InStep) (hs : s.status = .stopped) :
    Fresh s.machine s.current.value s.now
      ({ s with status := .running }.log (.started s.now)) where
  machine := rfl
  now := rfl
  slot := h.slot
  delayed := by
    show s.timers.pending.filter (·.task.isDelayed) = []
    rw [(h.stopped hs).1, List.filter_nil]
  value := rfl
  entered := by
    rw [entered?_append (journal_log _ _)]
    rfl

theorem inStep_create (machine : Machine κ) (options : Options κ) (channel : Nat) :
    (create machine options channel).InStep where
  stopped _ := ⟨rfl, rfl⟩
  running hs := by cases hs
  slot := TimerQueue.slot_empty

/-- A part of an operation that leaves the status alone. -/
theorem ends_inStep {s : Service κ} {o : Outcome κ} (h : o.Ends InPlace (fun _ => True))
    (hf : s.Follows o.service) (hs : s.status = .running) :
    o.Ends InStep (fun _ => True) := by
  cases o with
  | completed r => exact InPlace.inStep h (hf.status.trans hs)
  | overflowed r => trivial

/-- Every delayed transition that fired so far found its state current and itself in the list. -/
def Punctual (s : Service κ) : Prop := ∀ e ∈ s.journal, e.Timely

theorem Punctual.adds {s r : Service κ} (h : s.Punctual) (k : Adds Entry.Timely s r) :
    r.Punctual := k.forall_mem h

variable [BEq κ]

/-- A property of what a service has done so far, and what is left of it when an operation is cut
short. It is enough that it survives what takes no timer, and each firing on a service in place. -/
structure Lasts (done cut : Service κ → Prop) : Prop where
  weaken : ∀ s, done s → cut s
  quiet : ∀ s r, done s → r.machine = s.machine → s.AddsNoTurn r → done r
  fire : ∀ s limit horizon t timers, done s → s.InPlace → s.status = .running →
    s.timers.popDue? limit horizon = some (t, timers) →
    ((s.taken t timers).fire t).Ends done cut

variable {done cut : Service κ → Prop}

/-- Parts of operations on services in step keep a lasting property as well. -/
abbrev EndsInStep (done cut : Service κ → Prop) (o : Outcome κ) : Prop :=
  o.Ends (fun r => r.InStep ∧ done r) cut

/-- A part of an operation that puts a running service in place and takes no timer. -/
theorem Lasts.ends_quiet (hk : Lasts done cut) {s : Service κ} {o : Outcome κ} (hdone : done s)
    (hs : s.status = .running) (hplace : o.Ends InPlace (fun _ => True))
    (hf : s.Follows o.service) (hadds : s.AddsNoTurn o.service) : EndsInStep done cut o := by
  have hr : done o.service := hk.quiet s _ hdone hf.machine hadds
  have hboth := (ends_inStep hplace hf hs).and (Outcome.ends_of_service hr)
  exact hboth.imp (fun _ h => h) (fun r h => hk.weaken r h.2)

/-- Starting enters the current state anew. -/
theorem Lasts.ends_start (hk : Lasts done cut) {s : Service κ} (h : s.InStep) (hdone : done s) :
    EndsInStep done cut s.start := by
  unfold start
  split
  · exact ⟨h, hdone⟩
  · rename_i hs
    have hbegun := h.fresh (not_isRunning_iff.1 hs)
    have hdone : done ({ s with status := .running }.log (.started s.now)) :=
      hk.quiet s _ hdone rfl ⟨[.started s.now], journal_log _ _, by simp [Entry.isTurn]⟩
    have harming (r : Service κ) : r.Arming r.armDelayed.service := arming_armEach _ _ _ r
    refine hk.ends_quiet hdone rfl ?_ ?_ ?_
    · have hentered := Outcome.ends_of_service (hbegun.stays
        (stays_execute .start (s.machine.entryOf s.current.value) _))
      refine (hentered.imp (fun _ h => h) (fun _ _ => trivial)).andThen fun r hr => ?_
      exact (ends_armDelayed hr).andThen fun u hu => ends_settle [] u hu
    · refine (stays_execute .start _ _).toFollows.andThen fun r => ?_
      exact (harming r).toFollows.andThen follows_resolve
    · refine (stays_execute .start _ _).addsNoTurn.andThen fun r => ?_
      exact ((moves_armDelayed r).andThen fun u _ => moves_settle [] u).addsNoTurn

theorem Lasts.stop (hk : Lasts done cut) {s : Service κ} (h : s.InStep) (hdone : done s) :
    s.stop.InStep ∧ done s.stop := by
  unfold Service.stop
  split
  · have hnone : s.timers.cancelAll.pending = [] := by simp [TimerQueue.cancelAll, TimerQueue.keep]
    refine ⟨⟨fun _ => ⟨hnone, rfl⟩, ?_, TimerQueue.slot_cancelAll _⟩, ?_⟩
    · intro hs
      cases hs
    · exact hk.quiet s _ hdone rfl ⟨[.stopped], journal_log _ _, by simp [Entry.isTurn]⟩
  · exact ⟨h, hdone⟩

theorem Lasts.ends_sendAfter (hk : Lasts done cut) (event : Event) (delay : Duration)
    {s : Service κ} (h : s.InStep) (hdone : done s) :
    EndsInStep done cut (s.sendAfter event delay) := by
  unfold sendAfter
  split
  · rename_i hs
    have hs : s.status = .running := isRunning_iff.1 hs
    have hstays := s.stays_defer event delay
    refine hk.ends_quiet hdone hs ?_ hstays.toFollows hstays.addsNoTurn
    exact (Outcome.ends_of_service ((h.inPlace hs).stays hstays)).imp (fun _ h => h)
      (fun _ _ => trivial)
  · exact ⟨h, hdone⟩

theorem Lasts.log (hk : Lasts done cut) {s : Service κ} (h : s.InStep) (hdone : done s)
    {e : Entry κ} (hentered : e.entered? = none) (hturn : e.isTurn = false) :
    (s.log e).InStep ∧ done (s.log e) :=
  ⟨h.log hentered, hk.quiet s _ hdone rfl (adds_log s hturn)⟩

theorem Lasts.ends_send (hk : Lasts done cut) (event : Event) {s : Service κ} (h : s.InStep)
    (hdone : done s) : EndsInStep done cut (s.send event) := by
  unfold send
  split
  · rename_i hs
    have hs : s.status = .running := isRunning_iff.1 hs
    obtain ⟨haccepted, hdone⟩ := hk.log h hdone (e := .accepted event) rfl rfl
    exact hk.ends_quiet hdone hs (ends_deliver event (haccepted.inPlace hs))
      (follows_deliver event _) (Moves.addsNoTurn (moves_deliver event _))
  · exact ⟨h, hdone⟩

theorem Lasts.ends_drain (hk : Lasts done cut) (limit : Duration) (horizon : Nat) (s : Service κ)
    (hh : horizon ≤ s.timers.nextId) (h : s.InStep) (hdone : done s) :
    EndsInStep done cut (drain limit horizon s hh) := by
  have hfired {s : Service κ} (h : s.InStep) (hdone : done s) {t : Timer} {timers : TimerQueue}
      (hpop : s.timers.popDue? limit horizon = some (t, timers)) :
      EndsInStep done cut ((s.taken t timers).fire t) := by
    have hs := h.running_of_popDue? hpop
    have hplace := ends_inStep (ends_fire (h.inPlace hs) hs hpop) (follows_fire t _) hs
    have hlast := hk.fire s limit horizon t timers hdone (h.inPlace hs) hs hpop
    exact (hplace.and hlast).imp (fun _ h => h) (fun _ h => h.2)
  fun_induction drain limit horizon s hh with
  | case1 => exact ⟨h, hdone⟩
  | case2 s hh t timers hpop r hfire =>
    have hr := hfired h hdone hpop
    rw [hfire] at hr
    exact hr
  | case3 s hh t timers hpop r hfire _ _ _ ih =>
    have hr := hfired h hdone hpop
    rw [hfire] at hr
    exact ih hr.1 hr.2

theorem Lasts.ends_advance (hk : Lasts done cut) (time : Duration) {s : Service κ} (h : s.InStep)
    (hdone : done s) : EndsInStep done cut (s.advance time) := by
  unfold advance
  split
  · exact hk.weaken s hdone
  · refine (hk.ends_drain _ _ s _ h hdone).andThen fun r hr => ⟨hr.1.setNow _, ?_⟩
    exact hk.quiet r _ hr.2 rfl (adds_of_journal_eq _ rfl)

theorem Lasts.ends_sleep (hk : Lasts done cut) (limit : Duration) (last : Option Duration)
    (s : Service κ) (hlast : ∀ instant ∈ last, s.timers.NotBefore instant) (h : s.InStep)
    (hdone : done s) : EndsInStep done cut (sleep limit last s hlast) := by
  have hadvance {s : Service κ} (h : s.InStep) (hdone : done s) (deadline time : Duration) :
      EndsInStep done cut ((s.log (.woke deadline)).advance time) := by
    obtain ⟨hwoke, hdone⟩ := hk.log h hdone (e := .woke deadline) rfl rfl
    exact hk.ends_advance time hwoke hdone
  fun_induction sleep limit last s hlast with
  | case1 => exact ⟨h, hdone⟩
  | case2 => exact ⟨h, hdone⟩
  | case3 last s _ deadline _ _ _ awake r hrun =>
    have hr := hadvance h hdone deadline (deadline.minus s.now)
    rw [hrun] at hr
    exact hr
  | case4 last s _ deadline _ _ _ awake r hrun _ _ ih =>
    have hr := hadvance h hdone deadline (deadline.minus s.now)
    rw [hrun] at hr
    obtain ⟨hdrained, hdone⟩ := hk.log hr.1 hr.2 (e := .drained r.now) rfl rfl
    exact ih hdrained hdone
  | case5 => exact ⟨h, hdone⟩

theorem Lasts.ends_runFor (hk : Lasts done cut) (time : Duration) {s : Service κ} (h : s.InStep)
    (hdone : done s) : EndsInStep done cut (s.runFor time) := by
  unfold runFor
  split
  · exact hk.weaken s hdone
  · exact (hk.ends_sleep _ none s _ h hdone).andThen fun r hr => hk.ends_advance _ hr.1 hr.2

theorem Lasts.ends_apply (hk : Lasts done cut) (op : Operation) {s : Service κ} (h : s.InStep)
    (hdone : done s) : EndsInStep done cut (s.apply op) := by
  cases op with
  | start => exact hk.ends_start h hdone
  | stop => exact hk.stop h hdone
  | send event => exact hk.ends_send event h hdone
  | sendAfter event delay => exact hk.ends_sendAfter event delay h hdone
  | advance time => exact hk.ends_advance time h hdone
  | runFor time => exact hk.ends_runFor time h hdone

/-- What lasts is true after every run of operations from a service in step, and the service is in
step again if the run completes. -/
theorem Lasts.ends_run (hk : Lasts done cut) (ops : List Operation) {s : Service κ} (h : s.InStep)
    (hdone : done s) : EndsInStep done cut (run ops s) := by
  induction ops generalizing s with
  | nil => exact ⟨h, hdone⟩
  | cons op rest ih => exact (hk.ends_apply op h hdone).andThen fun r hr => ih hr.1 hr.2

theorem lasts_true : Lasts (κ := κ) (fun _ => True) (fun _ => True) where
  weaken _ h := h
  quiet _ _ h _ _ := h
  fire _ _ _ _ _ _ _ _ _ := Outcome.ends_of_service trivial

/-- A session that completes leaves its service in step. -/
theorem inStep_of_attend {machine : Machine κ} {options : Options κ} {channel : Nat}
    {calls : List (Call κ)} {b : Switchboard κ} {s : Service κ}
    (h : ((create machine options channel).attend calls b).1 = .completed s) : s.InStep := by
  have hends := lasts_true.ends_run (calls.filterMap Call.operation?)
    (inStep_create machine options channel) trivial
  rw [← attend_fst calls _ b, h] at hends
  exact hends.1

/-- A delayed transition that fires while the service is in place lapses only for want of another
declared state to go to. -/
theorem adds_fire {s : Service κ} (h : s.InPlace) (hs : s.status = .running) {limit : Duration}
    {horizon : Nat} {t : Timer} {timers : TimerQueue}
    (hpop : s.timers.popDue? limit horizon = some (t, timers)) :
    Adds Entry.Timely (s.taken t timers) ((s.taken t timers).fire t).service := by
  have hquiet {r u : Service κ} (k : r.AddsNoTurn u) : Adds Entry.Timely r u :=
    k.imp fun _ => Entry.Timely.of_isTurn
  have hlapsed {why : Lapse} (hwhy : why = .ownState ∨ why = .undeclared) :
      (Entry.lapsed t why : Entry κ).Timely := by
    rintro _ _ ⟨⟩
    exact hwhy
  have hfires := fires_of_inPlace h hs hpop
  generalize (s.taken t timers).fire t = o at hfires ⊢
  cases hfires with
  | delivered => exact hquiet (Moves.addsNoTurn (moves_deliver _ _))
  | kept => exact adds_log _ (hlapsed (.inl rfl))
  | lost => exact adds_log _ (hlapsed (.inr rfl))
  | @left index d _ hd _ hdecl =>
    have hoffer : (s.taken t timers).machine.Offers s.current.value d.target d.actions :=
      .delayed (List.mem_of_getElem? hd) hdecl
    have hcommit := moves_commit (.after d.delay s.current.value) hoffer
    exact hquiet (Moves.addsNoTurn (hcommit.andThen fun r _ => moves_settle [] r))

theorem lasts_punctual : Lasts (κ := κ) Punctual Punctual where
  weaken _ h := h
  quiet _ _ h _ hadds := h.adds (hadds.imp fun _ => Entry.Timely.of_isTurn)
  fire s _ _ t timers h hplace hs hpop := by
    have htaken : (s.taken t timers).Punctual := by
      refine h.adds ⟨[.fired t timers.now], by simp [taken, withTimers, journal], ?_⟩
      rintro e he t' why rfl
      simp at he
    exact Outcome.ends_of_service (htaken.adds (adds_fire hplace hs hpop))

/-- After every session that completes, nothing waits if the service is stopped; if it runs, the
delayed transitions that wait are those of the current state, due their delays after the state was
entered or the service was started, none of those missing that lead to another declared state; at
most one deferred event waits, and the queue knows its key. No delayed transition has ever fired out
of its state or without a place in the state's list, even in a session that is cut short. -/
theorem inStep_attend (machine : Machine κ) (options : Options κ) (channel : Nat)
    (calls : List (Call κ)) (b : Switchboard κ) :
    ((create machine options channel).attend calls b).1.Ends
      (fun s => s.InStep ∧ s.Punctual ∧
        ∀ t ∈ s.timers.pending, ∀ u ∈ s.timers.pending, t.task.isDelayed = false →
          u.task.isDelayed = false → t = u)
      Punctual := by
  rw [attend_fst]
  have hcreated : (create machine options channel).Punctual := by
    intro e he
    simp [create, journal, Journal.toList] at he
  refine (lasts_punctual.ends_run _ (inStep_create machine options channel) hcreated).imp ?_
    (fun _ h => h)
  rintro s ⟨hstep, hpunctual⟩
  refine ⟨hstep, hpunctual, ?_⟩
  intro t ht u hu htask hutask
  exact hstep.slot.single ht hu htask hutask

end Service
end TimedMachine
