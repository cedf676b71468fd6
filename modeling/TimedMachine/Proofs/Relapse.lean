import TimedMachine.Proofs.Passes
import TimedMachine.Proofs.Timekeeping

/-!
The readings of the clock at which the drains of a timed run end. The loop compares deadlines, not
readings: as long as nothing is overdue both are the same, and every drain ends later than the one
before. A run that begins with an overdue timer drains the queue at the time of its beginning, and
once more at that time if a timer is then held back at it (`instants_runFor`). Two states that pass on
to each other without delay are an instance of this.
-/
namespace TimedMachine

variable {κ : Type}

namespace Service

/-- Drains of a timed run ended between two moments at these readings of the clock. -/
def Instants (s r : Service κ) (clocks : List Duration) : Prop :=
  ∃ new, r.journal = s.journal ++ new ∧ Entry.drainings new = clocks

theorem Instants.cons {s r u : Service κ} {clock : Duration} {clocks : List Duration}
    (h : Instants s r [clock]) (k : Instants r u clocks) : Instants s u (clock :: clocks) := by
  obtain ⟨new, hr, hnew⟩ := h
  obtain ⟨more, hu, hmore⟩ := k
  refine ⟨new ++ more, by rw [hu, hr, List.append_assoc], ?_⟩
  rw [Entry.drainings_append, hnew, hmore]
  rfl

theorem instants_nil (s : Service κ) : Instants s s [] := ⟨[], (List.append_nil _).symm, rfl⟩

/-- The deadline drained last is the reading of the clock, and nothing is due before it. -/
structure Watch.Abreast (w : Watch κ) : Prop where
  last : w.last = some w.service.now
  notBefore : w.service.timers.NotBefore w.service.now

variable [BEq κ] {limit : Duration} {horizon : Nat}

/-- What is armed past the horizon is not due before an instant that the clock has passed. -/
def Onward (instant : Duration) (horizon : Nat) (s : Service κ) : Prop :=
  instant ≤ s.now ∧ ∀ t ∈ s.timers.pending, horizon ≤ t.key.id → instant ≤ t.key.deadline

theorem Turn.onward {instant : Duration} {s r : Service κ} (h : Turn limit horizon s r)
    (hs : Onward instant horizon s) : Onward instant horizon r := by
  obtain ⟨t, timers, hpop, hfire⟩ := h
  obtain ⟨hq, _, _, hnow, _⟩ := TimerQueue.popDue?_eq_some hpop
  have hleads := (follows_fire t (s.taken t timers)).timers
  rw [hfire] at hleads
  have hclock : instant ≤ timers.now := by
    rw [hnow, Duration.le_def, Duration.nanos_later]
    exact Nat.le_trans hs.1 (Nat.le_max_left _ _)
  have hafter : r.timers.now = timers.now := hleads.now
  refine ⟨?_, fun u hu hid => ?_⟩
  · show instant ≤ r.timers.now
    rw [hafter]
    exact hclock
  · rcases hleads.pending u hu with hold | ⟨_, hlate, _⟩
    · exact hs.2 u (hq ▸ List.mem_cons_of_mem _ hold) hid
    · exact Nat.le_trans hclock hlate

theorem Drains.onward {instant : Duration} {s : Service κ} {ts : List Timer} {o : Outcome κ}
    (h : Drains limit horizon s ts o) (hs : Onward instant horizon s) :
    o.Ends (Onward instant horizon) (fun _ => True) := by
  induction h with
  | idle => exact hs
  | cut => trivial
  | turn hpop hfire _ ih => exact ih (Turn.onward ⟨_, _, hpop, hfire⟩ hs)

/-- After an advance nothing is due before the time at which it began. -/
theorem notBefore_now_of_advance {s r : Service κ} {time : Duration}
    (h : s.advance time = .completed r) : r.timers.NotBefore s.now := by
  obtain ⟨limit, ts, u, hlimit, hdrains, _, hidle, rfl, _⟩ := drains_of_advance h
  have hstart : Onward s.now s.timers.nextId s := by
    refine ⟨Nat.le_refl _, fun t ht hid => ?_⟩
    exact absurd (s.timers.fresh t ht) (Nat.not_lt_of_le hid)
  have hpast : Onward s.now s.timers.nextId u := hdrains.onward hstart
  have hsum := Duration.add?_eq_some hlimit
  intro t ht
  rcases TimerQueue.late_or_held hidle with hlate | ⟨v, hfirst, _, hid, _⟩
  · have hlt := hlate t ht
    rw [Duration.lt_def] at hlt
    rw [Duration.le_def]
    omega
  · have hv := hpast.2 v hfirst.waits hid
    rcases hfirst.least t ht with rfl | hbefore
    · exact hv
    · exact Nat.le_trans hv hbefore.deadline_le

/-- There is only one iteration from a moment on. -/
theorem Wakes.unique {w v v' : Watch κ} (h : Wakes limit w v) (k : Wakes limit w v') : v = v' := by
  cases h with | mk hnext _ _ hrun
  cases k with | mk hnext' _ _ hrun'
  obtain rfl := Option.some.inj (hnext.symm.trans hnext')
  obtain rfl := Outcome.completed.inj (hrun.symm.trans hrun')
  rfl

theorem Wakes.instants {w v : Watch κ} (h : Wakes limit w v) :
    Instants w.service v.service [v.service.now] := by
  cases h with | @mk last s r deadline _ _ _ hrun
  obtain ⟨inner, hr, hinner⟩ := s.journal_woken deadline (deadline.minus s.now)
  rw [hrun, Outcome.service_completed] at hr
  refine ⟨.woke deadline :: (inner ++ [.drained r.now]), by simp [hr], ?_⟩
  rw [Entry.drainings_woke, Entry.drainings_append, Entry.drainings_of_isWaking hinner]
  rfl

/-- No drain ends that is cut short. -/
theorem instants_of_overflowed {s r : Service κ} {deadline time : Duration}
    (h : (s.log (.woke deadline)).advance time = .overflowed r) : Instants s r [] := by
  obtain ⟨inner, hr, hinner⟩ := s.journal_woken deadline time
  rw [h] at hr
  refine ⟨_, hr, ?_⟩
  rw [Entry.drainings_woke, Entry.drainings_of_isWaking hinner]

/-- The loop goes on with an iteration, or it is over and no further drain ends in it. -/
theorem Sleeps.wakes_or {last : Option Duration} {s : Service κ} {o : Outcome κ}
    (h : Sleeps limit last s o) :
    (∃ v, Wakes limit ⟨last, s⟩ v ∧ Sleeps limit v.last v.service o) ∨
      (∀ v, ¬ Wakes limit ⟨last, s⟩ v) ∧ Instants s o.service [] := by
  cases h with
  | idle hnext =>
    refine .inr ⟨fun v hv => ?_, instants_nil s⟩
    cases hv with | mk hnext'
    simp [hnext] at hnext'
  | late hnext hlate =>
    refine .inr ⟨fun v hv => ?_, instants_nil s⟩
    cases hv with | mk hnext' hlimit'
    obtain rfl := Option.some.inj (hnext.symm.trans hnext')
    exact hlate hlimit'
  | held hnext =>
    refine .inr ⟨fun v hv => ?_, instants_nil s⟩
    cases hv with | mk hnext' _ hlast'
    exact hlast' (hnext.symm.trans hnext')
  | cut hnext _ _ hrun =>
    refine .inr ⟨fun v hv => ?_, instants_of_overflowed hrun⟩
    cases hv with | mk hnext' _ _ hrun'
    obtain rfl := Option.some.inj (hnext.symm.trans hnext')
    simp [hrun] at hrun'
  | turn hnext hlimit hlast hrun hrest =>
    exact .inl ⟨_, .mk hnext hlimit hlast hrun, hrest⟩

/-- After the drain of a deadline that was not overdue the run is abreast of the clock. -/
theorem Wakes.abreast {w v : Watch κ} (h : Wakes limit w v) {deadline : Duration}
    (hlast : v.last = some deadline) (hdue : w.service.now ≤ deadline) :
    v.Abreast ∧ v.service.now = deadline := by
  have hclock : v.service.now = deadline := (h.now hlast).trans (if_pos hdue)
  refine ⟨⟨?_, ?_⟩, hclock⟩
  · rw [hclock, hlast]
  · rw [hclock]
    exact h.notBefore deadline hlast

/-- After a drain nothing is due before the time at which it began. -/
theorem Wakes.notBefore_now {w v : Watch κ} (h : Wakes limit w v) :
    v.service.timers.NotBefore w.service.now := by
  cases h with | @mk last s r deadline _ _ _ hrun
  have hafter : r.timers.NotBefore (s.log (.woke deadline)).now := notBefore_now_of_advance hrun
  exact hafter

/-- The next deadline is no overdue one, once nothing is due before the clock. -/
theorem Wakes.exists_deadline {w v : Watch κ} (h : Wakes limit w v) {instant : Duration}
    (hw : w.service.timers.NotBefore instant) :
    ∃ deadline, v.last = some deadline ∧ instant ≤ deadline ∧ w.last ≠ some deadline := by
  cases h with | mk hnext _ hlast
  exact ⟨_, rfl, hw.le_nextDeadline hnext, hlast⟩

/-- From a moment on at which the run is abreast of the clock, every drain ends later than the one
before. -/
theorem Sleeps.instants_of_abreast {last : Option Duration} {s : Service κ} {o : Outcome κ}
    (h : Sleeps limit last s o) (hw : Watch.Abreast ⟨last, s⟩) :
    ∃ clocks, Instants s o.service clocks ∧ (s.now :: clocks).Pairwise (· < ·) := by
  induction h with
  | @idle _ s => exact ⟨[], instants_nil s, List.pairwise_singleton _ _⟩
  | @late _ s => exact ⟨[], instants_nil s, List.pairwise_singleton _ _⟩
  | @held s => exact ⟨[], instants_nil s, List.pairwise_singleton _ _⟩
  | cut _ _ _ hrun => exact ⟨[], instants_of_overflowed hrun, List.pairwise_singleton _ _⟩
  | @turn last s r deadline o hnext hlimit hlast hrun _ ih =>
    have hwakes : Wakes limit ⟨last, s⟩ ⟨some deadline, r.log (.drained r.now)⟩ :=
      .mk hnext hlimit hlast hrun
    have hle : s.now ≤ deadline := hw.notBefore.le_nextDeadline hnext
    have hlt : s.now < deadline :=
      Nat.lt_of_le_of_ne hle fun heq => hlast (hw.last.trans (by rw [Duration.ext heq]))
    obtain ⟨habreast, hclock⟩ := hwakes.abreast rfl hle
    obtain ⟨clocks, hclocks, hascending⟩ := ih habreast
    refine ⟨_, hwakes.instants.cons hclocks, List.pairwise_cons.2 ⟨fun clock hin => ?_, hascending⟩⟩
    obtain ⟨hfirst, _⟩ := List.pairwise_cons.1 hascending
    rcases List.mem_cons.1 hin with rfl | hin
    · rw [hclock]
      exact hlt
    · exact Nat.lt_trans (hclock ▸ hlt) (hfirst clock hin)

/-- A timed run drains the queue twice at one reading of the clock: the first deadline is overdue,
and the second one is the reading itself. -/
def Relapses (limit : Duration) (s : Service κ) : Prop :=
  ∃ w v, Wakes limit ⟨none, s⟩ w ∧ (∀ overdue ∈ w.last, overdue < s.now) ∧
    Wakes limit w v ∧ v.last = some s.now

/-- The readings of the clock at which the drains of a timed run end: no two are the same, but for the
first two if the run relapses. -/
theorem Sleeps.instants {s : Service κ} {o : Outcome κ} (h : Sleeps limit none s o) :
    ∃ clocks, Instants s o.service clocks ∧
      ((¬ Relapses limit s ∧ clocks.Pairwise (· < ·)) ∨
        (Relapses limit s ∧ ∃ rest, clocks = s.now :: s.now :: rest ∧
          (s.now :: rest).Pairwise (· < ·))) := by
  rcases h.wakes_or with ⟨w, hw, hrest⟩ | ⟨hnot, hinstants⟩
  case inr =>
    refine ⟨[], hinstants, .inl ⟨?_, .nil⟩⟩
    rintro ⟨w, _, hw, _⟩
    exact hnot w hw
  have hzero : s.timers.NotBefore .zero := fun _ _ => Nat.zero_le _
  obtain ⟨deadline, hdeadline, _⟩ := hw.exists_deadline hzero
  by_cases hdue : s.now ≤ deadline
  case pos =>
    obtain ⟨habreast, hclock⟩ := hw.abreast hdeadline hdue
    obtain ⟨clocks, hclocks, hascending⟩ := hrest.instants_of_abreast habreast
    refine ⟨_, hw.instants.cons hclocks, .inl ⟨?_, hascending⟩⟩
    rintro ⟨w', _, hw', hoverdue, _⟩
    obtain rfl := hw.unique hw'
    exact Nat.not_lt_of_le hdue (hoverdue deadline hdeadline)
  have hclock : w.service.now = s.now := (hw.now hdeadline).trans (if_neg hdue)
  rcases hrest.wakes_or with ⟨v, hv, hrest⟩ | ⟨hnot, hinstants⟩
  case inr =>
    refine ⟨_, hw.instants.cons hinstants, .inl ⟨?_, List.pairwise_singleton _ _⟩⟩
    rintro ⟨w', v, hw', _, hv, _⟩
    obtain rfl := hw.unique hw'
    exact hnot v hv
  obtain ⟨next, hnext, hle, _⟩ := hv.exists_deadline hw.notBefore_now
  obtain ⟨habreast, hlast⟩ := hv.abreast hnext (hclock ▸ hle)
  obtain ⟨clocks, hclocks, hascending⟩ := hrest.instants_of_abreast habreast
  refine ⟨_, hw.instants.cons (hv.instants.cons hclocks), ?_⟩
  by_cases hsame : next = s.now
  case pos =>
    refine .inr ⟨⟨w, v, hw, ?_, hv, hsame ▸ hnext⟩, clocks, ?_, ?_⟩
    · intro overdue hin
      obtain rfl := Option.some.inj (hdeadline.symm.trans hin)
      exact Nat.lt_of_not_le hdue
    · rw [hclock, hlast, hsame]
    · rw [← hsame, ← hlast]
      exact hascending
  have hlt : s.now < next := Nat.lt_of_le_of_ne hle fun heq => hsame (Duration.ext heq.symm)
  refine .inl ⟨?_, List.pairwise_cons.2 ⟨fun clock hin => ?_, hascending⟩⟩
  · rintro ⟨w', v', hw', _, hv', hsecond⟩
    obtain rfl := hw.unique hw'
    obtain rfl := hv.unique hv'
    exact hsame (Option.some.inj (hnext.symm.trans hsecond))
  · obtain ⟨hfirst, _⟩ := List.pairwise_cons.1 hascending
    rw [hlast] at hfirst
    rw [hclock]
    rcases List.mem_cons.1 hin with rfl | hin
    · rw [hlast]
      exact hlt
    · exact Nat.lt_trans hlt (hfirst clock hin)

theorem drainings_runFor {time : Duration} {s : Service κ} (hlimit : s.now.add? time = some limit) :
    (¬ Relapses limit s ∧ (Entry.drainings ((s.runFor time).service.since s)).Pairwise (· < ·)) ∨
      (Relapses limit s ∧ ∃ rest,
        Entry.drainings ((s.runFor time).service.since s) = s.now :: s.now :: rest ∧
          (s.now :: rest).Pairwise (· < ·)) := by
  obtain ⟨o, hsleeps, hrun⟩ := exists_sleeps_runFor hlimit
  obtain ⟨clocks, ⟨new, ho, hnew⟩, hclocks⟩ := hsleeps.instants
  obtain ⟨rest, hsince, hrest⟩ := since_andThen_advance limit ho
  have hdrainings : Entry.drainings ((s.runFor time).service.since s) = clocks := by
    rw [hrun, hsince, Entry.drainings_append, Entry.drainings_of_isWaking hrest, List.append_nil,
      hnew]
  rwa [hdrainings]

/-- The drains of a timed run end at later and later readings of the clock, except that the first two
end at the same one if the run relapses, that is, if its first deadline is overdue and the second is
the time at which the run began. The advance over the rest of the time is not counted. -/
theorem instants_runFor (time : Duration) (s : Service κ) :
    match s.now.add? time with
    | none => s.runFor time = .overflowed s
    | some limit =>
      (¬ Relapses limit s →
        (Entry.drainings ((s.runFor time).service.since s)).Pairwise (· < ·)) ∧
      (Relapses limit s → ∃ rest,
        Entry.drainings ((s.runFor time).service.since s) = s.now :: s.now :: rest ∧
          (s.now :: rest).Pairwise (· < ·)) := by
  cases hlimit : s.now.add? time with
  | none => simp [runFor, hlimit]
  | some limit =>
    rcases drainings_runFor hlimit with ⟨hnot, hascending⟩ | ⟨hrelapses, hrest⟩
    · exact ⟨fun _ => hascending, fun h => absurd h hnot⟩
    · exact ⟨fun hnot => absurd hrelapses hnot, fun _ => hrest⟩

end Service

/-- Two states that pass on to each other without any delay. -/
def pingPong : Machine Nat where
  initial := some "ping"
  states := .ofList
    [("ping", { after := [⟨.zero, "pong", []⟩] }), ("pong", { after := [⟨.zero, "ping", []⟩] })]

/-- The other of the two states. -/
def volley (state : String) : String := if state = "ping" then "pong" else "ping"

theorem Duration.add?_zero (d : Duration) : d.add? .zero = some d := add?_of_nanos rfl

namespace Service

/-- The ball is in the air: the timer of the current state waits alone. -/
structure Bouncing (deadline : Duration) (s : Service Nat) : Prop where
  machine : s.machine = pingPong
  value : s.current.value = "ping" ∨ s.current.value = "pong"
  pending : ∃ id, s.timers.pending = [⟨⟨deadline, id⟩, .delayed s.current.value 0, true⟩]

theorem Bouncing.barren {deadline : Duration} {s : Service Nat} (h : Bouncing deadline s) :
    s.machine.alwaysOf s.current.value = [] := by
  rw [h.machine]
  rcases h.value with hv | hv <;> rw [hv] <;> rfl

/-- A state that has only one delayed transition, without delay, arms its timer at the clock. -/
theorem bouncing_armDelayed {s : Service Nat} (hm : s.machine = pingPong)
    (hv : s.current.value = "ping" ∨ s.current.value = "pong") (hp : s.timers.pending = []) :
    ∃ r, s.armDelayed = .completed r ∧ Bouncing s.now r ∧ r.now = s.now := by
  have hafter : s.machine.afterOf s.current.value = [⟨.zero, volley s.current.value, []⟩] := by
    rw [hm]
    rcases hv with hv | hv <;> rw [hv] <;> rfl
  have hsome : (s.timers.timer? .zero (.delayed s.current.value 0)) =
      some ⟨⟨s.now, s.timers.nextId⟩, .delayed s.current.value 0, true⟩ := by
    rw [TimerQueue.timer?, Duration.add?_zero]
    rfl
  let armed := s.withTimers (s.timers.enqueue _ (TimerQueue.id_of_timer? hsome))
    (.armed ⟨⟨s.now, s.timers.nextId⟩, .delayed s.current.value 0, true⟩)
  refine ⟨armed, ?_, ⟨hm, hv, s.timers.nextId, ?_⟩, rfl⟩
  · rw [armDelayed, hafter, armEach, arm, TimerQueue.arm?_of_timer? hsome]
    rfl
  · show Timer.place _ s.timers.pending = _
    rw [hp]
    rfl

theorem bouncing_fire {s : Service Nat} (hm : s.machine = pingPong)
    (hv : s.current.value = "ping" ∨ s.current.value = "pong")
    (hp : s.timers.pending = []) (key : Key) :
    ∃ r, s.fire ⟨key, .delayed s.current.value 0, true⟩ = .completed r ∧ Bouncing s.now r ∧
      r.now = s.now := by
  let event : Event := .after .zero s.current.value
  let arrived := (s.cancelDelayed.arrive (volley s.current.value) [] event).notify
  have hpending : arrived.timers.pending = [] := by
    show s.timers.pending.filter _ = []
    rw [hp]
    rfl
  have hvalue : arrived.current.value = "ping" ∨ arrived.current.value = "pong" := by
    show volley s.current.value = "ping" ∨ volley s.current.value = "pong"
    rcases hv with hv | hv <;> simp [hv, volley]
  obtain ⟨r, harmed, hr, hnow⟩ := bouncing_armDelayed (s := arrived) hm hvalue hpending
  have hcommit : s.commit (volley s.current.value) [] event = .completed r := by
    have hexit : s.machine.exitOf s.current.value = [] := by
      rw [hm]
      rcases hv with hv | hv <;> rw [hv] <;> rfl
    have hentry : s.machine.entryOf (volley s.current.value) = [] := by
      rw [hm]
      rcases hv with hv | hv <;> rw [hv] <;> rfl
    rw [commit, hexit, execute, Outcome.completed_andThen,
      show s.cancelDelayed.machine.entryOf _ = [] from hentry]
    exact harmed
  refine ⟨r, ?_, hr, hnow⟩
  have hfire : s.fire ⟨key, .delayed s.current.value 0, true⟩ =
      (s.commit (volley s.current.value) [] event).andThen resolve := by
    have hafter : s.machine.afterOf s.current.value = [⟨.zero, volley s.current.value, []⟩] := by
      rw [hm]
      rcases hv with hv | hv <;> rw [hv] <;> rfl
    have hother : volley s.current.value ≠ s.current.value := by
      rcases hv with hv | hv <;> simp [hv, volley]
    have hdecl : s.machine.declares (volley s.current.value) = true := by
      rw [hm]
      rcases hv with hv | hv <;> rw [hv] <;> rfl
    simp [fire, hafter, hother, hdecl, event]
  rw [hfire, hcommit]
  exact settle_of_barren [] hr.barren

/-- The timer that waits is taken when it is due, and the one that is armed in its place is held back. -/
theorem Bouncing.advance {deadline time : Duration} {s : Service Nat} (h : Bouncing deadline s)
    (hlimit : s.now.add? time = some limit) (hdue : deadline ≤ limit) :
    ∃ r, s.advance time = .completed r ∧ Bouncing (s.now.later deadline) r := by
  obtain ⟨id, hpending⟩ := h.pending
  have hfirst : s.timers.First ⟨⟨deadline, id⟩, .delayed s.current.value 0, true⟩ :=
    TimerQueue.first_iff.2 (by rw [hpending]; rfl)
  obtain ⟨timers, hpop⟩ := hfirst.popDue? hdue (s.timers.fresh _ hfirst.waits)
  obtain ⟨hq, _, _, hclock, hnext⟩ := TimerQueue.popDue?_eq_some hpop
  have hempty : timers.pending = [] := by
    rw [hpending] at hq
    exact (List.cons.inj hq).2.symm
  let taken := s.taken ⟨⟨deadline, id⟩, .delayed s.current.value 0, true⟩ timers
  obtain ⟨r, hfire, hr, _⟩ : ∃ r,
      taken.fire ⟨⟨deadline, id⟩, .delayed s.current.value 0, true⟩ = .completed r ∧
        Bouncing taken.now r ∧ r.now = taken.now :=
    bouncing_fire (s := taken) h.machine h.value hempty ⟨deadline, id⟩
  obtain ⟨new, hnew⟩ := hr.pending
  have hleads := (follows_fire ⟨⟨deadline, id⟩, .delayed s.current.value 0, true⟩ taken).timers
  rw [hfire] at hleads
  -- The new timer is numbered past the horizon, so it ends the drain.
  have hpast : s.timers.nextId ≤ new := by
    have hin : ⟨⟨taken.now, new⟩, .delayed r.current.value 0, true⟩ ∈ r.timers.pending := by
      rw [hnew]
      exact List.mem_cons_self
    rcases hleads.pending _ hin with hold | ⟨hid, _⟩
    · rw [show taken.timers.pending = [] from hempty] at hold
      cases hold
    · exact hnext ▸ hid
  have hidle : r.timers.popDue? limit s.timers.nextId = none := by
    unfold TimerQueue.popDue?
    rw [hnew]
    exact if_pos (.inr ⟨hpast, rfl⟩)
  refine ⟨r.setNow limit, ?_, hr.machine, hr.value, new, ?_⟩
  · rw [advance_eq_of_drains hlimit (.turn hpop hfire (.idle hidle))]
    rfl
  · rw [← show taken.now = s.now.later deadline from hclock]
    exact hnew

theorem Bouncing.log {deadline : Duration} {s : Service Nat} (h : Bouncing deadline s)
    (e : Entry Nat) : Bouncing deadline (s.log e) := ⟨h.machine, h.value, h.pending⟩

theorem Bouncing.wakes {deadline : Duration} {w : Watch Nat} (h : Bouncing deadline w.service)
    (hlimit : deadline ≤ limit) (hlast : w.last ≠ some deadline) :
    ∃ v, Wakes limit w v ∧ v.last = some deadline ∧
      Bouncing (w.service.now.later deadline) v.service := by
  obtain ⟨last, s⟩ := w
  have hnext : s.timers.nextDeadline = some deadline := by
    obtain ⟨id, hpending⟩ := h.pending
    rw [TimerQueue.nextDeadline, hpending]
    rfl
  have hle : deadline ≤ s.now.later deadline := by
    rw [Duration.le_def, Duration.nanos_later]
    exact Nat.le_max_right _ _
  obtain ⟨r, hrun, hr⟩ := (h.log (.woke deadline)).advance add?_minus hle
  exact ⟨_, .mk hnext hlimit hlast hrun, rfl, hr.log _⟩

/-- Whenever the timer is overdue, a timed run relapses. -/
theorem Bouncing.relapses {overdue : Duration} {s : Service Nat} (h : Bouncing overdue s)
    (hoverdue : overdue < s.now) (hnow : s.now ≤ limit) : Relapses limit s := by
  have hlater : s.now.later overdue = s.now := if_neg (Nat.not_le_of_lt hoverdue)
  obtain ⟨w, hw, hwlast, hbouncing⟩ :=
    Bouncing.wakes (w := ⟨none, s⟩) h (Nat.le_trans (Nat.le_of_lt hoverdue) hnow) (by simp)
  rw [hlater] at hbouncing
  have hne : w.last ≠ some s.now := by
    rw [hwlast]
    intro heq
    obtain rfl := Option.some.inj heq
    exact Nat.lt_irrefl _ hoverdue
  obtain ⟨v, hv, hvlast, _⟩ := hbouncing.wakes hnow hne
  refine ⟨w, v, hw, fun instant hin => ?_, hv, hvlast⟩
  obtain rfl := Option.some.inj (hwlast.symm.trans hin)
  exact hoverdue

theorem bouncing_start :
    ∃ r, (create pingPong {} 0).start = .completed r ∧ Bouncing .zero r ∧ r.now = .zero := by
  let begun : Service Nat :=
    ({ create pingPong {} 0 with status := .running } : Service Nat).log (.started .zero)
  obtain ⟨r, harmed, hr, hnow⟩ := bouncing_armDelayed (s := begun) rfl (.inl rfl) rfl
  refine ⟨r, ?_, hr, hnow⟩
  have hstart : (create pingPong {} 0).start =
      (execute .start [] begun).andThen fun s => s.armDelayed.andThen resolve := rfl
  rw [hstart, execute, Outcome.completed_andThen, harmed]
  exact settle_of_barren [] hr.barren

/-- Started and moved on by ten milliseconds in one go, the two states leave a timer behind that is
overdue since the beginning; the timed run that follows drains the queue twice at ten milliseconds. -/
theorem drainings_pingPong : ∃ s : Service Nat,
    (create pingPong {} 0).start.service.advance ⟨10000000, by decide⟩ = .completed s ∧
    s.now = ⟨10000000, by decide⟩ ∧
    ¬ (Entry.drainings ((s.runFor ⟨5000000, by decide⟩).service.since s)).Pairwise (· < ·) := by
  obtain ⟨r, hstart, hr, hnow⟩ := bouncing_start
  have hwindow : r.now.add? ⟨10000000, by decide⟩ = some ⟨10000000, by decide⟩ := by
    rw [hnow]
    decide
  obtain ⟨s, hs, hbouncing⟩ := hr.advance hwindow (by decide)
  obtain ⟨_, _, _, hend, _, _, _, _, hclock⟩ := drains_of_advance hs
  obtain rfl := Option.some.inj (hwindow.symm.trans hend)
  have hlimit : s.now.add? ⟨5000000, by decide⟩ = some ⟨15000000, by decide⟩ := by
    rw [hclock]
    decide
  rw [hnow] at hbouncing
  have hrelapses : Relapses ⟨15000000, by decide⟩ s :=
    hbouncing.relapses (by rw [hclock]; decide) (by rw [hclock]; decide)
  refine ⟨s, by rw [hstart]; exact hs, hclock, fun hascending => ?_⟩
  rcases drainings_runFor hlimit with ⟨hnot, _⟩ | ⟨_, rest, hrest, _⟩
  · exact hnot hrelapses
  · rw [hrest] at hascending
    exact Nat.lt_irrefl _ ((List.pairwise_cons.1 hascending).1 s.now List.mem_cons_self)

end Service
end TimedMachine
