import TimedMachine.Service.Delivery

/-!
Moving the clock. `advance` drains the queue of what falls due within a window, in firing order, and
then sets the clock to the end of the window. `runFor` does the same from deadline to deadline, as
one does who sleeps until each of them. Both are total: a drain ends because of
`TimerQueue.measure_lt`, a timed run because each drain leaves nothing due before its own deadline.
-/
namespace TimedMachine.Service

variable {κ : Type} [BEq κ]

/-- Do what a timer that has fired is for. A deferred event is for a running service. A delayed
transition lapses unless its state is still current and its target is another declared state. -/
def fire (t : Timer) (s : Service κ) : Outcome κ :=
  match t.task with
  | .deferred event => if s.isRunning then s.deliver event else .completed s
  | .delayed state index =>
    if s.current.value ≠ state then .completed (s.log (.lapsed t .elsewhere))
    else
      match (s.machine.afterOf state)[index]? with
      | none => .completed (s.log (.lapsed t .missing))
      | some d =>
        if d.target = state then .completed (s.log (.lapsed t .ownState))
        else if s.machine.declares d.target then
          (s.commit d.target d.actions (.after d.delay state)).andThen resolve
        else .completed (s.log (.lapsed t .undeclared))

theorem follows_fire (t : Timer) (s : Service κ) : s.Follows (s.fire t).service := by
  unfold fire
  split
  · split
    · exact s.follows_deliver _
    · exact .refl s
  · split
    · exact s.follows_log _
    · split
      · exact s.follows_log _
      · split
        · exact s.follows_log _
        · split
          · exact (s.follows_commit _ _ _).andThen follows_resolve
          · exact s.follows_log _

/-- The service as the timer that was taken is about to act on it. -/
def taken (t : Timer) (timers : TimerQueue) (s : Service κ) : Service κ :=
  s.withTimers timers (.fired t timers.now)

/-- Fire all timers that fall due by the limit and are not held back. -/
def drain (limit : Duration) (horizon : Nat) (s : Service κ) (h : horizon ≤ s.timers.nextId) :
    Outcome κ :=
  match hpop : s.timers.popDue? limit horizon with
  | none => .completed s
  | some (t, timers) =>
    match hfire : (s.taken t timers).fire t with
    | .overflowed r => .overflowed r
    | .completed r =>
      have hlead : timers.Leads r.timers := by
        have := (follows_fire t (s.taken t timers)).timers
        rwa [hfire] at this
      have hid : timers.nextId = s.timers.nextId := (TimerQueue.popDue?_eq_some hpop).2.2.2.2
      have hless : TimerQueue.Smaller (r.timers.measure limit horizon)
          (s.timers.measure limit horizon) := TimerQueue.measure_lt hpop hlead h
      drain limit horizon r (Nat.le_trans (hid ▸ h) hlead.nextId)
termination_by s.timers.measure limit horizon
decreasing_by exact hless

theorem notBefore_fire {instant limit : Duration} {horizon : Nat} {s : Service κ} {t : Timer}
    {timers : TimerQueue} (hs : s.timers.NotBefore instant)
    (hpop : s.timers.popDue? limit horizon = some (t, timers)) :
    ((s.taken t timers).fire t).service.timers.NotBefore instant := by
  obtain ⟨hq, _, _, hnow, _⟩ := TimerQueue.popDue?_eq_some hpop
  refine (follows_fire t (s.taken t timers)).timers.notBefore ?_ ?_
  · exact fun u hu => hs u (hq ▸ List.mem_cons_of_mem _ hu)
  · have hdue : instant ≤ t.key.deadline := hs t (hq ▸ List.mem_cons_self)
    show instant ≤ timers.now
    rw [hnow, Duration.le_def, Duration.nanos_later]
    exact Nat.le_trans hdue (Nat.le_max_right _ _)

/-- A drain that starts with nothing due before an instant ends so. -/
theorem notBefore_drain {instant : Duration} (limit : Duration) (horizon : Nat) (s : Service κ)
    (h : horizon ≤ s.timers.nextId) (hs : s.timers.NotBefore instant) :
    (drain limit horizon s h).service.timers.NotBefore instant := by
  fun_induction drain limit horizon s h with
  | case1 => exact hs
  | case2 s _ t timers hpop r hfire =>
    have := notBefore_fire hs hpop
    rwa [hfire] at this
  | case3 s _ t timers hpop r hfire _ _ _ ih =>
    refine ih ?_
    have := notBefore_fire hs hpop
    rwa [hfire] at this

/-- Set the clock, unless it is past that already. -/
def setNow (now : Duration) (s : Service κ) : Service κ := { s with timers := s.timers.setNow now }

/-- Move the clock on, firing every timer that falls due on the way, in firing order. An immediate
timer armed on the way is held back when it comes to the head of the queue, and the rest with it. -/
def advance (time : Duration) (s : Service κ) : Outcome κ :=
  match s.now.add? time with
  | none => .overflowed s
  | some limit =>
    (s.drain limit s.timers.nextId (Nat.le_refl _)).andThen fun s => .completed (s.setNow limit)

theorem notBefore_advance {instant : Duration} (time : Duration) (s : Service κ)
    (hs : s.timers.NotBefore instant) : (s.advance time).service.timers.NotBefore instant := by
  unfold advance
  split
  · exact hs
  · rename_i limit _
    have hd := s.notBefore_drain limit s.timers.nextId (Nat.le_refl _) hs
    cases ho : s.drain limit s.timers.nextId (Nat.le_refl _) with
    | completed r =>
      rw [ho] at hd
      exact hd
    | overflowed r =>
      rw [ho] at hd
      exact hd

/-- How much further the deadlines of a timed run may go. -/
def ahead (limit : Duration) : Option Duration → Nat
  | none => limit.nanos + 1
  | some last => limit.nanos - last.nanos

theorem ahead_lt {limit deadline : Duration} {last : Option Duration} (hlimit : deadline ≤ limit)
    (hle : ∀ instant ∈ last, instant ≤ deadline) (hne : last ≠ some deadline) :
    ahead limit (some deadline) < ahead limit last := by
  rw [Duration.le_def] at hlimit
  cases last with
  | none => exact Nat.lt_succ_of_le (Nat.sub_le _ _)
  | some instant =>
    have hle := Duration.le_def.1 (hle instant rfl)
    have hne : instant.nanos ≠ deadline.nanos := fun e => hne (by rw [Duration.ext e])
    show limit.nanos - deadline.nanos < limit.nanos - instant.nanos
    omega

/-- Sleep until the next deadline and drain it, again and again up to the limit. The loop ends early
when the deadline just drained comes again: only a timer that was held back is due then. -/
def sleep (limit : Duration) (last : Option Duration) (s : Service κ)
    (h : ∀ instant ∈ last, s.timers.NotBefore instant) : Outcome κ :=
  match hnext : s.timers.nextDeadline with
  | none => .completed s
  | some deadline =>
    if hlimit : deadline ≤ limit then
      if hlast : last = some deadline then .completed s
      else
        let awake := s.log (.woke deadline)
        match hrun : awake.advance (deadline.minus s.now) with
        | .overflowed r => .overflowed r
        | .completed r =>
          have hkept : ∀ instant ∈ some deadline,
              (r.log (.drained r.now)).timers.NotBefore instant := by
            intro instant hi
            obtain rfl := Option.some.inj hi
            have := awake.notBefore_advance (deadline.minus s.now)
              (TimerQueue.notBefore_of_nextDeadline hnext)
            rwa [hrun] at this
          have hless : ahead limit (some deadline) < ahead limit last :=
            ahead_lt hlimit (fun instant hi => (h instant hi).le_nextDeadline hnext) hlast
          sleep limit (some deadline) (r.log (.drained r.now)) hkept
    else .completed s
termination_by ahead limit last

/-- Move the clock on from deadline to deadline, and then through what is left of the time. -/
def runFor (time : Duration) (s : Service κ) : Outcome κ :=
  match s.now.add? time with
  | none => .overflowed s
  | some limit =>
    (s.sleep limit none (by simp)).andThen fun s => s.advance (limit.minus s.now)

end TimedMachine.Service
