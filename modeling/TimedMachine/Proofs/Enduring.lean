import TimedMachine.Service.Operation

/-!
Properties that endure. What starting, stopping, sending and the firing of one timer keep, and what
does not depend on the clock, is kept by every run of operations, whether or not it completes
(`Endures.run`).
-/
namespace TimedMachine

variable {κ : Type}

/-- What holds after the first part holds after both if the second part keeps it. -/
theorem Outcome.keeps_andThen {p : Service κ → Prop} {o : Outcome κ} {next : Service κ → Outcome κ}
    (h : p o.service) (k : ∀ r, p r → p (next r).service) : p (o.andThen next).service := by
  cases o with
  | completed r => exact k r h
  | overflowed r => exact h

namespace Service

variable [BEq κ]

/-- A property that a service keeps whatever is done to it: an operation that leaves the clock alone,
a timer that is taken and fires, or a change of the clock. -/
structure Endures (p : Service κ → Prop) : Prop where
  start : ∀ s, p s → p s.start.service
  stop : ∀ s, p s → p s.stop
  send : ∀ event s, p s → p (s.send event).service
  sendAfter : ∀ event delay s, p s → p (s.sendAfter event delay).service
  fire : ∀ limit horizon t timers s, p s → s.timers.popDue? limit horizon = some (t, timers) →
    p ((s.taken t timers).fire t).service
  clocked : ∀ now s, p s → p (s.setNow now)
  woke : ∀ deadline s, p s → p (s.log (.woke deadline))
  drained : ∀ s, p s → p (s.log (.drained s.now))

namespace Endures

variable {p : Service κ → Prop} {s : Service κ}

theorem drain (hp : Endures p) (limit : Duration) (horizon : Nat) (s : Service κ)
    (hh : horizon ≤ s.timers.nextId) (h : p s) : p (drain limit horizon s hh).service := by
  fun_induction Service.drain limit horizon s hh with
  | case1 => exact h
  | case2 s _ t timers hpop r hfire =>
    have hr := hp.fire limit horizon t timers s h hpop
    rwa [hfire] at hr
  | case3 s _ t timers hpop r hfire _ _ _ ih =>
    have hr := hp.fire limit horizon t timers s h hpop
    rw [hfire] at hr
    exact ih hr

theorem advance (hp : Endures p) (time : Duration) (h : p s) : p (s.advance time).service := by
  unfold Service.advance
  split
  · exact h
  · exact Outcome.keeps_andThen (hp.drain _ _ s _ h) fun r hr => hp.clocked _ r hr

theorem sleep (hp : Endures p) (limit : Duration) (last : Option Duration) (s : Service κ)
    (hlast : ∀ instant ∈ last, s.timers.NotBefore instant) (h : p s) :
    p (sleep limit last s hlast).service := by
  fun_induction Service.sleep limit last s hlast with
  | case1 => exact h
  | case2 => exact h
  | case3 last s _ deadline _ _ _ awake r hrun =>
    have hr := hp.advance (deadline.minus s.now) (hp.woke deadline s h)
    rwa [hrun] at hr
  | case4 last s _ deadline _ _ _ awake r hrun _ _ ih =>
    have hr := hp.advance (deadline.minus s.now) (hp.woke deadline s h)
    rw [hrun] at hr
    exact ih (hp.drained r hr)
  | case5 => exact h

theorem runFor (hp : Endures p) (time : Duration) (h : p s) : p (s.runFor time).service := by
  unfold Service.runFor
  split
  · exact h
  · exact Outcome.keeps_andThen (hp.sleep _ none s _ h) fun r hr => hp.advance _ hr

theorem apply (hp : Endures p) (op : Operation) (h : p s) : p (s.apply op).service := by
  cases op with
  | start => exact hp.start s h
  | stop => exact hp.stop s h
  | send event => exact hp.send event s h
  | sendAfter event delay => exact hp.sendAfter event delay s h
  | advance time => exact hp.advance time h
  | runFor time => exact hp.runFor time h

theorem run (hp : Endures p) (ops : List Operation) {s : Service κ} (h : p s) :
    p (run ops s).service := by
  induction ops generalizing s with
  | nil => exact h
  | cons op rest ih => exact Outcome.keeps_andThen (hp.apply op h) fun r hr => ih hr

end Endures
end Service
end TimedMachine
