import TimedMachine.Proofs.Writing

/-!
Stays in a state. While a state is current, the delayed transitions that wait are its own, armed when
it was entered or the service was started (`InPlace`). A commit cancels them all before anything else
and arms those of the new state after everything else, so a service that was in place is in place
again after a commit, a pass of eventless transitions, a delivery, or the firing of a timer.
-/
namespace TimedMachine

variable {κ : Type}

/-- The clock reading of an entry that begins a stay in a state. -/
def Entry.entered? : Entry κ → Option Duration
  | .started clock => some clock
  | .committed r => some r.clock
  | _ => none

namespace Service

/-- The clock reading when the current state was last entered, or the service last started if that
was later. -/
def entered? (s : Service κ) : Option Duration := (s.journal.filterMap Entry.entered?).getLast?

theorem entered?_append {s r : Service κ} {e : Entry κ} (h : r.journal = s.journal ++ [e]) :
    r.entered? = e.entered?.or s.entered? := by
  rw [entered?, entered?, h, List.filterMap_append, List.getLast?_append]
  cases he : e.entered? <;> simp [he]

theorem Adds.entered?_eq {p : Entry κ → Prop} {s r : Service κ} (h : Adds p s r)
    (hp : ∀ e, p e → e.entered? = none) : r.entered? = s.entered? :=
  congrArg List.getLast? (h.filterMap_eq hp)

theorem entered?_of_isWork (e : Entry κ) (h : e.isWork = true) : e.entered? = none := by
  cases e <;> simp [Entry.isWork, Entry.entered?] at *

/-- No delayed transition waits, at a clock reading. -/
structure Bare (m : Machine κ) (clock : Duration) (s : Service κ) : Prop where
  machine : s.machine = m
  now : s.now = clock
  slot : s.timers.Slot
  delayed : s.timers.delayed = []

/-- A state was entered at a clock reading, and its delayed transitions have not been armed yet. -/
structure Fresh (m : Machine κ) (state : String) (clock : Duration) (s : Service κ) : Prop
    extends Bare m clock s where
  value : s.current.value = state
  entered : s.entered? = some clock

/-- The delayed transitions that wait are those of the current state. -/
structure InPlace (s : Service κ) : Prop where
  slot : s.timers.Slot
  serves : ∃ since, s.entered? = some since ∧ s.timers.Serves s.machine s.current.value since

theorem Bare.stays {m : Machine κ} {clock : Duration} {s r : Service κ} (h : Bare m clock s)
    (k : s.Stays r) : Bare m clock r where
  machine := k.machine.trans h.machine
  now := k.timers.now.trans h.now
  slot := k.slot h.slot
  delayed := (k.delayed h.slot).trans h.delayed

theorem Fresh.stays {m : Machine κ} {state : String} {clock : Duration} {s r : Service κ}
    (h : Fresh m state clock s) (k : s.Stays r) : Fresh m state clock r where
  toBare := h.toBare.stays k
  value := k.value.trans h.value
  entered := (k.entries.entered?_eq entered?_of_isWork).trans h.entered

theorem bare_cancelDelayed {s : Service κ} (hs : s.timers.Slot) :
    Bare s.machine s.now s.cancelDelayed :=
  ⟨rfl, rfl, hs.cancelDelayed, TimerQueue.delayed_cancelDelayed _⟩

theorem fresh_arrive {m : Machine κ} {clock : Duration} {s : Service κ} (h : Bare m clock s)
    (target : String) (actions : List (Action κ)) (event : Event) :
    Fresh m target clock (s.arrive target actions event) where
  machine := h.machine
  now := h.now
  slot := h.slot
  delayed := h.delayed
  value := rfl
  entered := by
    rw [entered?_append (s.journal_arrive target actions event), ← h.now]
    rfl

/-- Arming the delayed transitions of a state that was just entered. -/
theorem ends_armDelayed {m : Machine κ} {state : String} {clock : Duration} {s : Service κ}
    (h : Fresh m state clock s) : s.armDelayed.Ends InPlace (fun _ => True) := by
  unfold armDelayed
  have harming := arming_armEach s.current.value 0 (s.machine.afterOf s.current.value) s
  cases ho : armEach s.current.value 0 (s.machine.afterOf s.current.value) s with
  | overflowed r => trivial
  | completed r =>
    rw [ho, Outcome.service_completed] at harming
    obtain ⟨hall, honly⟩ := armEach_completed ho (Nat.add_zero _).symm
    simp only [Nat.zero_add] at hall honly
    have hnow : r.timers.now = s.now := harming.timers.now
    have hnone : ∀ t ∈ s.timers.pending, t.task.isDelayed ≠ true := by
      intro t ht htask
      have := TimerQueue.mem_delayed.2 ⟨ht, htask⟩
      rw [h.delayed] at this
      cases this
    refine ⟨harming.slot h.slot, s.now, ?_, ?_⟩
    · rw [harming.entries.entered?_eq entered?_of_isWork, h.entered, h.now]
    · have hmachine : r.machine = s.machine := harming.machine
      have hcurrent : r.current = s.current := harming.current
      rw [hmachine, hcurrent]
      refine TimerQueue.serves_of_hasTimer (Duration.le_def.2 (Nat.le_of_eq ?_)) hall ?_
      · rw [hnow]
      · intro t ht htask
        rcases honly t ht with hold | hnew
        · exact absurd htask (hnone t hold)
        · exact hnew

/-- A committed transition leaves nothing of the old state's timers and arms those of the new one. -/
theorem ends_commit (target : String) (actions : List (Action κ)) (event : Event) {s : Service κ}
    (hs : s.timers.Slot) :
    (s.commit target actions event).Ends InPlace (fun _ => True) := by
  have hexit : (execute event (s.machine.exitOf s.current.value) s.cancelDelayed).Ends
      (Bare s.machine s.now) (Bare s.machine s.now) :=
    Outcome.ends_of_service ((bare_cancelDelayed hs).stays (stays_execute _ _ _))
  refine (hexit.imp (fun _ h => h) (fun _ _ => trivial)).andThen fun r hr => ?_
  have hentry : (execute event (r.machine.entryOf target) (r.arrive target actions event)).Ends
      (Fresh s.machine target s.now) (Fresh s.machine target s.now) :=
    Outcome.ends_of_service ((fresh_arrive hr target actions event).stays (stays_execute _ _ _))
  refine (hentry.imp (fun _ h => h) (fun _ _ => trivial)).andThen fun u hu => ?_
  have hown : (execute event u.current.actions u).Ends
      (Fresh s.machine target s.now) (Fresh s.machine target s.now) :=
    Outcome.ends_of_service (hu.stays (stays_execute _ _ _))
  refine (hown.imp (fun _ h => h) (fun _ _ => trivial)).andThen fun v hv => ?_
  have hj : v.notify.journal = v.journal ++ [.notified v.current] := v.journal_log _
  have hnotified : Fresh s.machine target s.now v.notify :=
    ⟨⟨hv.machine, hv.now, hv.slot, hv.delayed⟩, hv.value, by
      rw [entered?_append hj]
      exact hv.entered⟩
  exact ends_armDelayed hnotified

/-- What is true of a service in place stays true if neither its timers nor its state changes, and
no stay in a state begins. -/
theorem InPlace.of_eq {s r : Service κ} (h : s.InPlace) (hmachine : r.machine = s.machine)
    (hvalue : r.current.value = s.current.value) (htimers : r.timers = s.timers)
    (hentered : r.entered? = s.entered?) : r.InPlace := by
  obtain ⟨hslot, since, hsince, hserves⟩ := h
  refine ⟨htimers ▸ hslot, since, hentered.trans hsince, ?_⟩
  rw [htimers, hmachine, hvalue]
  exact hserves

theorem InPlace.log {s : Service κ} (h : s.InPlace) {e : Entry κ} (he : e.entered? = none) :
    (s.log e).InPlace :=
  h.of_eq rfl rfl rfl (by rw [entered?_append (s.journal_log e), he, Option.none_or])

theorem InPlace.weigh {s : Service κ} (h : s.InPlace) (ts : List (Eventless κ)) :
    (s.weigh ts).InPlace :=
  weigh_keeps h fun _ _ _ _ _ hr => hr.log rfl

/-- Running actions changes neither the state nor its timers. -/
theorem InPlace.stays {s r : Service κ} (h : s.InPlace) (k : s.Stays r) : r.InPlace := by
  obtain ⟨hslot, since, hsince, hserves⟩ := h
  refine ⟨k.slot hslot, since, (k.entries.entered?_eq entered?_of_isWork).trans hsince, ?_⟩
  rw [k.machine, k.value]
  refine hserves.of_delayed (Duration.le_def.2 (Nat.le_of_eq ?_)) (k.delayed hslot)
  rw [k.timers.now]

theorem ends_settle (visited : List String) (s : Service κ) (h : s.InPlace) :
    (settle visited s).Ends InPlace (fun _ => True) := by
  fun_induction settle visited s with
  | case1 => exact h
  | case2 => exact h
  | case3 => exact h.weigh _
  | case4 => trivial
  | case5 visited s _ _ ts t _ _ r hstep _ _ ih =>
    have hcommit := ends_commit t.target t.actions (.always s.current.value) (h.weigh ts).slot
    rw [hstep] at hcommit
    exact ih hcommit
  | case6 => exact (h.weigh _).log rfl

/-- The service is in place when a timer has been taken that leads to no other declared state. -/
theorem InPlace.taken {s : Service κ} (h : s.InPlace) {limit : Duration} {horizon : Nat} {t : Timer}
    {timers : TimerQueue} (hpop : s.timers.popDue? limit horizon = some (t, timers))
    (hvain : ∀ index d, t.task = .delayed s.current.value index →
      (s.machine.afterOf s.current.value)[index]? = some d →
      d.target = s.current.value ∨ s.machine.declares d.target = false) :
    (s.taken t timers).InPlace := by
  obtain ⟨hslot, since, hsince, hserves⟩ := h
  refine ⟨TimerQueue.slot_of_popDue? hpop hslot, since, ?_, hserves.popDue? hpop hvain⟩
  have hj : (s.taken t timers).journal = s.journal ++ [.fired t timers.now] := by
    simp [Service.taken, withTimers, journal]
  rw [entered?_append hj]
  exact hsince

variable [BEq κ]

/-- A self-transition runs its actions in place. -/
theorem ends_stay (next : Snapshot κ) (event : Event) {s : Service κ} (h : s.InPlace)
    (hvalue : next.value = s.current.value) :
    (s.stay next event).Ends InPlace (fun _ => True) := by
  have htaken : (s.withCurrent next).InPlace := h.of_eq rfl hvalue rfl rfl
  have hown : (execute event next.actions (s.withCurrent next)).Ends InPlace InPlace :=
    Outcome.ends_of_service (htaken.stays (stays_execute _ _ _))
  refine (hown.imp (fun _ h => h) (fun _ _ => trivial)).andThen fun r hr => ?_
  split
  · exact hr
  · have hchanged : (r.withCurrent { r.current with changed := true }).InPlace :=
      hr.of_eq rfl rfl rfl rfl
    exact hchanged.log rfl

theorem ends_deliver (event : Event) {s : Service κ} (h : s.InPlace) :
    (s.deliver event).Ends InPlace (fun _ => True) := by
  unfold deliver
  have hcleared := h.stays s.stays_cancelDeferred
  dsimp only
  split
  · exact hcleared
  · rename_i c hc
    have hjudged : (s.cancelDeferred.judge c event).InPlace := by
      unfold judge
      split
      · exact hcleared
      · exact hcleared.log rfl
    split
    · unfold proceed
      split
      · exact (ends_commit _ _ _ hjudged.slot).andThen fun r hr => ends_settle [] r hr
      · rename_i hsame
        refine ends_stay _ _ hjudged ?_
        rw [current_judge]
        exact Machine.value_of_candidate? hc (by simpa using hsame)
    · exact hjudged

/-- What a timer does that fires on a running service in place. -/
inductive Fires (s : Service κ) (t : Timer) (timers : TimerQueue) : Outcome κ → Prop
  | delivered {event : Event} (htask : t.task = .deferred event) :
      Fires s t timers ((s.taken t timers).deliver event)
  | kept {index : Nat} {d : Delayed κ} (htask : t.task = .delayed s.current.value index)
      (hd : (s.machine.afterOf s.current.value)[index]? = some d)
      (hown : d.target = s.current.value) :
      Fires s t timers (.completed ((s.taken t timers).log (.lapsed t .ownState)))
  | lost {index : Nat} {d : Delayed κ} (htask : t.task = .delayed s.current.value index)
      (hd : (s.machine.afterOf s.current.value)[index]? = some d)
      (hnot : s.machine.declares d.target = false) :
      Fires s t timers (.completed ((s.taken t timers).log (.lapsed t .undeclared)))
  | left {index : Nat} {d : Delayed κ} (htask : t.task = .delayed s.current.value index)
      (hd : (s.machine.afterOf s.current.value)[index]? = some d)
      (hother : d.target ≠ s.current.value) (hdecl : s.machine.declares d.target = true) :
      Fires s t timers
        (((s.taken t timers).commit d.target d.actions (.after d.delay s.current.value)).andThen
          resolve)

theorem fires_of_inPlace {s : Service κ} (h : s.InPlace) (hs : s.status = .running)
    {limit : Duration} {horizon : Nat} {t : Timer} {timers : TimerQueue}
    (hpop : s.timers.popDue? limit horizon = some (t, timers)) :
    Fires s t timers ((s.taken t timers).fire t) := by
  have hrunning : (s.taken t timers).isRunning = true := isRunning_iff.2 hs
  unfold fire
  cases htask : t.task with
  | deferred event =>
    simp only [hrunning, if_true]
    exact .delivered htask
  | delayed state index =>
    obtain ⟨since, _, hserves⟩ := h.serves
    have ht : t ∈ s.timers.pending := (TimerQueue.mem_of_popDue? hpop t).2 (.inl rfl)
    obtain ⟨rfl, d, hd, _⟩ := hserves.due t ht state index htask
    have hd' : ((s.taken t timers).machine.afterOf s.current.value)[index]? = some d := hd
    simp only [hd']
    rw [if_neg (fun hne => hne rfl)]
    split
    · rename_i hown
      exact .kept htask hd hown
    · rename_i hother
      split
      · rename_i hdecl
        exact .left htask hd hother hdecl
      · rename_i hnot
        exact .lost htask hd (Bool.eq_false_iff.2 hnot)

theorem ends_fire {s : Service κ} (h : s.InPlace) (hs : s.status = .running) {limit : Duration}
    {horizon : Nat} {t : Timer} {timers : TimerQueue}
    (hpop : s.timers.popDue? limit horizon = some (t, timers)) :
    ((s.taken t timers).fire t).Ends InPlace (fun _ => True) := by
  have hvain {index : Nat} {d : Delayed κ} (htask : t.task = .delayed s.current.value index)
      (hd : (s.machine.afterOf s.current.value)[index]? = some d)
      (hnot : d.target = s.current.value ∨ s.machine.declares d.target = false) :
      (s.taken t timers).InPlace := by
    refine h.taken hpop fun i e hi he => ?_
    rw [htask] at hi
    obtain ⟨_, rfl⟩ := Task.delayed.inj hi
    rw [hd] at he
    exact Option.some.inj he ▸ hnot
  have hfires := fires_of_inPlace h hs hpop
  generalize (s.taken t timers).fire t = o at hfires ⊢
  cases hfires with
  | delivered htask =>
    exact ends_deliver _ (h.taken hpop fun index d hd => by rw [htask] at hd; cases hd)
  | kept htask hd hown => exact (hvain htask hd (.inl hown)).log rfl
  | lost htask hd hnot => exact (hvain htask hd (.inr hnot)).log rfl
  | left htask hd =>
    have hslot : (s.taken t timers).timers.Slot := TimerQueue.slot_of_popDue? hpop h.slot
    exact (ends_commit _ _ _ hslot).andThen fun r hr => ends_settle [] r hr

end Service
end TimedMachine
