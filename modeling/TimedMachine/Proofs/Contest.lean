import TimedMachine.Proofs.Agreement
import TimedMachine.Proofs.Notification
import TimedMachine.Proofs.Numbering
import TimedMachine.Proofs.Passes
import TimedMachine.Proofs.Window

/-!
Which delayed transition of a state is taken. Its delayed transitions are armed together, so they fire
in the order of their delays, and among equal ones in the order of the list. Those that lead to no
other declared state fire in vain. The first that does lead to one is committed, and with that the
others are cancelled for good (`contest_advance`).
-/
namespace TimedMachine

variable {κ : Type}

/-- The entry tells of a timer that fired, or of a delayed transition that came to nothing for want of
another declared state to go to. -/
def Entry.InVain : Entry κ → Prop
  | .fired .. => True
  | .lapsed _ why => why = .ownState ∨ why = .undeclared
  | _ => False

theorem Entry.InVain.silent {e : Entry κ} (h : e.InVain) :
    e.notes = [] ∧ ∀ snapshot, e ≠ .notified snapshot := by
  cases e <;> simp [InVain, notes] at *

theorem Entry.InVain.record? {e : Entry κ} (h : e.InVain) : e.record? = none := by
  cases e <;> simp [InVain, Entry.record?] at *

theorem Entry.InVain.entered? {e : Entry κ} (h : e.InVain) : e.entered? = none := by
  cases e <;> simp [InVain, Entry.entered?] at *

namespace Service

/-- The delayed transition at an index in the list of the current state leads to another declared
state, and falls due within a time. -/
structure Contends (s : Service κ) (since time : Duration) (index : Nat) (d : Delayed κ) : Prop where
  listed : (s.machine.afterOf s.current.value)[index]? = some d
  elsewhere : d.target ≠ s.current.value
  declared : s.machine.declares d.target = true
  due : since.nanos + d.delay.nanos ≤ s.now.nanos + time.nanos

/-- Timers have fired in vain, and nothing else has become of the service but that its clock has moved
on. -/
structure Lull (s r : Service κ) : Prop where
  machine : r.machine = s.machine
  options : r.options = s.options
  channel : r.channel = s.channel
  status : r.status = s.status
  current : r.current = s.current
  history : r.history = s.history
  nextId : r.timers.nextId = s.timers.nextId
  entries : Adds Entry.InVain s r

/-- A lull as it is in the loop of a drain: the timers that have fired were due, the others wait as they
did, and the clock is not past what it will be when the next one fires. -/
structure Lulled (limit : Duration) (s r : Service κ) : Prop extends Lull s r where
  place : r.InPlace
  pending : ∃ gone, s.timers.pending = gone ++ r.timers.pending ∧ ∀ t ∈ gone, t.key.deadline ≤ limit
  clock : ∀ t ∈ r.timers.pending,
    max r.now.nanos t.key.deadline.nanos = max s.now.nanos t.key.deadline.nanos

variable {limit : Duration} {horizon : Nat} {s r u : Service κ}

theorem lulled_self (h : s.InPlace) (limit : Duration) : Lulled limit s s :=
  ⟨⟨rfl, rfl, rfl, rfl, rfl, rfl, rfl, .refl _ s⟩, h, ⟨[], rfl, by simp⟩, fun _ _ => rfl⟩

theorem Lulled.mem (h : Lulled limit s r) {t : Timer} (ht : t ∈ r.timers.pending) :
    t ∈ s.timers.pending := by
  obtain ⟨gone, hpending, _⟩ := h.pending
  rw [hpending]
  exact List.mem_append_right _ ht

/-- While it lasts, the delayed transitions that wait are those of the state in which it began. -/
theorem Lulled.serves (h : Lulled limit s r) {since : Duration} (hsince : s.entered? = some since) :
    r.timers.Serves s.machine s.current.value since := by
  obtain ⟨since', hsince', hserves⟩ := h.place.serves
  have hentered := h.entries.entered?_eq fun _ he => he.entered?
  rw [hsince', hsince] at hentered
  obtain rfl := Option.some.inj hentered
  rw [h.machine, h.current] at hserves
  exact hserves

/-- A timer that fires in vain prolongs the lull. -/
theorem Lulled.lapsed (h : Lulled limit s r) {t : Timer} {timers : TimerQueue} {why : Lapse}
    (hpop : r.timers.popDue? limit horizon = some (t, timers))
    (hwhy : why = .ownState ∨ why = .undeclared)
    (hplace : ((r.taken t timers).log (.lapsed t why)).InPlace) :
    Lulled limit s ((r.taken t timers).log (.lapsed t why)) := by
  obtain ⟨hq, hdue, _, hnow, hid⟩ := TimerQueue.popDue?_eq_some hpop
  have hfired : Adds Entry.InVain r (r.taken t timers) := r.adds_withTimers _ trivial
  refine ⟨⟨h.machine, h.options, h.channel, h.status, h.current, h.history, hid.trans h.nextId,
    (h.entries.trans hfired).trans (adds_log _ hwhy)⟩, hplace, ?_, ?_⟩
  · obtain ⟨gone, hpending, hgone⟩ := h.pending
    refine ⟨gone ++ [t], ?_, List.forall_mem_append.2 ⟨hgone, by simpa using hdue⟩⟩
    rw [hpending, hq, List.append_assoc]
    rfl
  · intro v hv
    have hordered := r.timers.ordered
    rw [hq] at hordered
    have hbefore : t.key.deadline.nanos ≤ v.key.deadline.nanos :=
      ((List.pairwise_cons.1 hordered).1 v hv).deadline_le
    have hclock := h.clock v (by rw [hq]; exact List.mem_cons_of_mem _ hv)
    show max timers.now.nanos v.key.deadline.nanos = _
    rw [hnow, Duration.nanos_later]
    show max (max r.now.nanos t.key.deadline.nanos) v.key.deadline.nanos = _
    omega

/-- The loop of a drain is a chain of steps. -/
theorem Drains.steps [BEq κ] {ts : List Timer} {o : Outcome κ}
    (h : Drains limit horizon s ts o) : Steps s o.service := by
  induction h with
  | idle => exact .refl
  | cut hpop hfire =>
    have hr := (acts_turn hpop).steps
    rwa [hfire] at hr
  | turn hpop hfire _ ih =>
    have hr := (acts_turn hpop).steps
    rw [hfire] at hr
    exact hr.trans ih

/-- How the loop of a drain goes that begins in a lull: it ends in the lull, or the lull ends with the
first timer whose transition is committed. -/
inductive Contest (limit : Duration) (horizon : Nat) (s r : Service κ) : Prop
  | lulled (h : Lulled limit s r) (hpop : r.timers.popDue? limit horizon = none)
  | won {u v : Service κ} {t : Timer} {timers : TimerQueue} {index : Nat} {d : Delayed κ}
      (h : Lulled limit s u) (hpop : u.timers.popDue? limit horizon = some (t, timers))
      (htask : t.task = .delayed s.current.value index)
      (hd : (s.machine.afterOf s.current.value)[index]? = some d)
      (hother : d.target ≠ s.current.value) (hdecl : s.machine.declares d.target = true)
      (hcommit : (u.taken t timers).commit d.target d.actions (.after d.delay s.current.value) =
        .completed v)
      (hsteps : Steps v r)

/-- What the commit of a delayed transition is followed by. -/
theorem steps_of_andThen_resolve {o : Outcome κ} (h : o.andThen resolve = .completed r) :
    ∃ v, o = .completed v ∧ Steps v r := by
  cases o with
  | overflowed v => cases h
  | completed v =>
    have hsteps := (moves_settle [] v).steps
    rw [show settle [] v = .completed r from h] at hsteps
    exact ⟨v, rfl, hsteps⟩

theorem Drains.contest [BEq κ] {ts : List Timer} {o : Outcome κ}
    (h : Drains limit horizon u ts o) (ho : o = .completed r) (hu : Lulled limit s u)
    (hs : s.status = .running) (hdelayed : ∀ t ∈ s.timers.pending, t.task.isDelayed = true) :
    Contest limit horizon s r := by
  induction h with
  | idle hpop =>
    cases ho
    exact .lulled hu hpop
  | cut => cases ho
  | @turn u v t timers ts o hpop hfire hrest ih =>
    have hrunning : u.status = .running := hu.status.trans hs
    have hwaits := hu.mem ((TimerQueue.mem_of_popDue? hpop t).2 (.inl rfl))
    have hplace := ends_fire hu.place hrunning hpop
    have hfires := fires_of_inPlace hu.place hrunning hpop
    rw [hfire] at hplace hfires
    generalize hv : Outcome.completed v = p at hfires
    cases hfires with
    | delivered htask =>
      have := hdelayed t hwaits
      rw [htask] at this
      cases this
    | kept =>
      obtain rfl := Outcome.completed.inj hv
      exact ih ho (hu.lapsed hpop (.inl rfl) hplace)
    | lost =>
      obtain rfl := Outcome.completed.inj hv
      exact ih ho (hu.lapsed hpop (.inr rfl) hplace)
    | @left index d htask hd hother hdecl =>
      rw [hu.current] at htask hother hv
      rw [hu.machine, hu.current] at hd
      rw [hu.machine] at hdecl
      obtain ⟨w, hcommit, hw⟩ := steps_of_andThen_resolve hv.symm
      have hrest := hrest.steps
      rw [ho] at hrest
      exact .won hu hpop htask hd hother hdecl hcommit (hw.trans hrest)

/-- A commit cancels all delayed transitions first, so if nothing else waits nothing is left. -/
theorem renewed_commit {target : String} {actions : List (Action κ)} {event : Event}
    (hdelayed : ∀ t ∈ s.timers.pending, t.task.isDelayed = true)
    (h : s.commit target actions event = .completed r) : Renewed s.timers.nextId r := by
  have hcleared : Renewed s.timers.nextId s.cancelDelayed := by
    refine ⟨Nat.le_refl _, fun t ht => ?_⟩
    obtain ⟨hin, hnot⟩ := TimerQueue.mem_cancelDelayed.1 ht
    rw [hdelayed t hin] at hnot
    cases hnot
  have hfollows : s.cancelDelayed.Follows (s.commit target actions event).service := by
    refine .andThen (follows_execute _ _ _) fun u => ?_
    refine .andThen ((u.follows_arrive _ _ _).trans (follows_execute _ _ _)) fun v => ?_
    refine .andThen (follows_execute _ _ _) fun w => ?_
    exact (w.follows_log _).trans (follows_armEach _ _ _ _)
  rw [h] at hfollows
  exact hcleared.leads hfollows.timers

/-- What an advance leaves of a service whose delayed transitions all lead nowhere within the time: the
clock has moved, and those that were due are gone. -/
structure Unmoved (s : Service κ) (time : Duration) (r : Service κ) : Prop extends Lull s r where
  clock : r.now.nanos = s.now.nanos + time.nanos
  deferred : r.timers.deferred = s.timers.deferred
  pending : r.timers.pending = s.timers.pending.filter (fun t => r.now < t.key.deadline)
  vain : ∀ t ∈ s.timers.pending, t.key.deadline ≤ r.now → ∃ index d,
    t.task = .delayed s.current.value index ∧ (s.machine.afterOf s.current.value)[index]? = some d ∧
      (d.target = s.current.value ∨ s.machine.declares d.target = false)

/-- The delayed transition is the first to be committed on the way from one service to another, by a
commit that leads from the state `u` of the service to `v`, and of the timers that were armed before
none fires ever after. -/
structure Takes (s : Service κ) (since : Duration) (d : Delayed κ) (u v r : Service κ) : Prop where
  lull : Lull s u
  clock : u.now.nanos = max s.now.nanos (since.nanos + d.delay.nanos)
  commit : u.commit d.target d.actions (.after d.delay s.current.value) = .completed v
  recorded : ∃ before after, v.journal = s.journal ++ (before ++
      .committed ⟨s.current.value, d.target, (Event.after d.delay s.current.value).kind, u.now, ()⟩ ::
        after) ∧ ∀ e ∈ before, e.record? = none
  rest : Steps v r

/-- The timer that fires first among those of transitions that contend belongs to the one with the
least delay, and among equal delays to the first of the list. -/
theorem least_of_popDue? {since time : Duration}
    (hserves : u.timers.Serves s.machine s.current.value since) {t : Timer} {timers : TimerQueue}
    {index : Nat} {d : Delayed κ} (hpop : u.timers.popDue? limit horizon = some (t, timers))
    (htask : t.task = .delayed s.current.value index)
    (hd : (s.machine.afterOf s.current.value)[index]? = some d) {j : Nat} {e : Delayed κ}
    (he : Contends s since time j e) :
    d.delay < e.delay ∨ d.delay = e.delay ∧ index ≤ j := by
  have hmem := TimerQueue.mem_of_popDue? hpop
  have ht : t ∈ u.timers.pending := (hmem t).2 (.inl rfl)
  obtain ⟨v, hv, hvtask⟩ := hserves.kept j e he.listed he.elsewhere he.declared
  obtain ⟨_, d', hd', hdeadline⟩ := hserves.due t ht _ _ htask
  obtain ⟨_, e', he', hvdeadline⟩ := hserves.due v hv _ _ hvtask
  obtain rfl := Option.some.inj (hd.symm.trans hd')
  obtain rfl := Option.some.inj (he.listed.symm.trans he')
  have hsum := Duration.add?_eq_some hdeadline
  have hvsum := Duration.add?_eq_some hvdeadline
  rcases (hmem v).1 hv with rfl | hrest
  · obtain ⟨_, rfl⟩ := Task.delayed.inj (htask.symm.trans hvtask)
    have hsame : d.delay = e.delay := by
      rw [Duration.eq_iff]
      omega
    exact .inr ⟨hsame, Nat.le_refl _⟩
  · have hordered := u.timers.ordered
    rw [(TimerQueue.popDue?_eq_some hpop).1] at hordered
    rcases (List.pairwise_cons.1 hordered).1 v hrest with hless | ⟨hequal, hid⟩
    · refine .inl ?_
      rw [Duration.lt_def] at hless ⊢
      omega
    · refine .inr ⟨?_, ?_⟩
      · rw [Duration.eq_iff] at hequal ⊢
        omega
      · by_contra hless
        have := hserves.ascending v hv t ht j index hvtask htask (Nat.lt_of_not_le hless)
        omega

/-- When all that waits is due after the window, nothing contends. -/
theorem not_contends_of_late {since time : Duration}
    (hserves : u.timers.Serves s.machine s.current.value since)
    (hlimit : limit.nanos = s.now.nanos + time.nanos)
    (hlate : ∀ t ∈ u.timers.pending, limit < t.key.deadline) (index : Nat) (d : Delayed κ) :
    ¬ Contends s since time index d := by
  intro hd
  obtain ⟨t, ht, htask⟩ := hserves.kept index d hd.listed hd.elsewhere hd.declared
  obtain ⟨_, d', hd', hdeadline⟩ := hserves.due t ht _ _ htask
  obtain rfl := Option.some.inj (hd.listed.symm.trans hd')
  have hsum := Duration.add?_eq_some hdeadline
  have hless := hlate t ht
  have hdue := hd.due
  rw [Duration.lt_def] at hless
  omega

/-- When a lull is over with nothing more to take, all that waits is due later: nothing was armed that
could be held back. -/
theorem Lulled.late (h : Lulled limit s u)
    (hpop : u.timers.popDue? limit s.timers.nextId = none) :
    ∀ t ∈ u.timers.pending, limit < t.key.deadline := by
  refine (TimerQueue.late_or_held hpop).resolve_right ?_
  rintro ⟨v, hfirst, _, hid, _⟩
  have hfresh := s.timers.fresh v (h.mem hfirst.waits)
  omega

/-- A queue in which only delayed transitions wait knows of no deferred event. -/
theorem deferred_eq_none {q : TimerQueue} (h : q.Slot)
    (hdelayed : ∀ t ∈ q.pending, t.task.isDelayed = true) : q.deferred = none := by
  cases hd : q.deferred with
  | none => rfl
  | some k =>
    obtain ⟨t, ht, _, htask⟩ := (h.known k).1 hd
    rw [hdelayed t ht] at htask
    cases htask

theorem Lulled.unmoved {since time : Duration} (h : Lulled limit s u) (hplace : s.InPlace)
    (hsince : s.entered? = some since)
    (hdelayed : ∀ t ∈ s.timers.pending, t.task.isDelayed = true)
    (hlimit : limit.nanos = s.now.nanos + time.nanos) (hnow : u.now ≤ limit)
    (hlate : ∀ t ∈ u.timers.pending, limit < t.key.deadline) :
    Unmoved s time (u.setNow limit) := by
  have hclock : (u.setNow limit).now = limit := if_pos hnow
  have hnone := not_contends_of_late (h.serves hsince) hlimit hlate
  obtain ⟨gone, hpending, hgone⟩ := h.pending
  refine ⟨⟨h.machine, h.options, h.channel, h.status, h.current, h.history, h.nextId, h.entries⟩,
    by rw [hclock, hlimit], ?_, ?_, fun t ht hdue => ?_⟩
  · rw [deferred_eq_none hplace.slot hdelayed]
    exact deferred_eq_none (q := u.timers) h.place.slot fun t ht => hdelayed t (h.mem ht)
  · rw [hclock, hpending, List.filter_append]
    have hnil : gone.filter (fun t => limit < t.key.deadline) = [] := by
      refine List.filter_eq_nil_iff.2 fun t ht => ?_
      have := hgone t ht
      rw [decide_eq_true_eq]
      exact Nat.not_lt_of_le this
    have hall : u.timers.pending.filter (fun t => limit < t.key.deadline) = u.timers.pending :=
      List.filter_eq_self.2 fun t ht => decide_eq_true (hlate t ht)
    rw [hnil, hall]
    rfl
  · rw [hclock] at hdue
    obtain ⟨since', hsince', hserves⟩ := hplace.serves
    obtain rfl := Option.some.inj (hsince.symm.trans hsince')
    have htask := hdelayed t ht
    cases hkind : t.task with
    | deferred event =>
      rw [hkind] at htask
      cases htask
    | delayed name index =>
      obtain ⟨rfl, d, hd, hdeadline⟩ := hserves.due t ht name index hkind
      refine ⟨index, d, rfl, hd, ?_⟩
      by_contra hleads
      obtain ⟨hother, hdecl⟩ := not_or.1 hleads
      have hsum := Duration.add?_eq_some hdeadline
      rw [Duration.le_def] at hdue
      exact hnone index d ⟨hd, hother, by simpa using hdecl, by omega⟩

/-- The transition that ends a lull is taken, and it contends. -/
theorem Lulled.takes {since : Duration} {v : Service κ} (h : Lulled limit s u)
    (hserves : u.timers.Serves s.machine s.current.value since) {t : Timer} {timers : TimerQueue}
    {index : Nat} {d : Delayed κ} (hpop : u.timers.popDue? limit horizon = some (t, timers))
    (htask : t.task = .delayed s.current.value index)
    (hd : (s.machine.afterOf s.current.value)[index]? = some d)
    (hcommit : (u.taken t timers).commit d.target d.actions (.after d.delay s.current.value) =
      .completed v) (hsteps : Steps v r) :
    t.key.deadline ≤ limit ∧ t.key.deadline.nanos = since.nanos + d.delay.nanos ∧
      Takes s since d (u.taken t timers) v r := by
  obtain ⟨_, hdue, _, hnow, hid⟩ := TimerQueue.popDue?_eq_some hpop
  have ht : t ∈ u.timers.pending := (TimerQueue.mem_of_popDue? hpop t).2 (.inl rfl)
  obtain ⟨_, d', hd', hdeadline⟩ := hserves.due t ht _ _ htask
  obtain rfl := Option.some.inj (hd.symm.trans hd')
  have hsum := Duration.add?_eq_some hdeadline
  have hclock : (u.taken t timers).now.nanos = max s.now.nanos (since.nanos + d.delay.nanos) := by
    show timers.now.nanos = _
    rw [hnow, Duration.nanos_later, ← hsum]
    exact h.clock t ht
  have hfired : Adds Entry.InVain s (u.taken t timers) :=
    h.entries.trans (u.adds_withTimers _ trivial)
  have hlull : Lull s (u.taken t timers) :=
    ⟨h.machine, h.options, h.channel, h.status, h.current, h.history, hid.trans h.nextId, hfired⟩
  refine ⟨hdue, hsum, hlull, hclock, hcommit, ?_, hsteps⟩
  have hrecords := ends_commit_records d.target d.actions (.after d.delay s.current.value)
    (u.taken t timers)
  rw [hcommit] at hrecords
  obtain ⟨new, hv, work, rest, rfl, hwork, _⟩ := hrecords
  obtain ⟨vain, hu, hvain⟩ := hfired
  rw [hlull.current] at hv
  refine ⟨vain ++ work, rest, ?_, List.forall_mem_append.2 ⟨?_, ?_⟩⟩
  · rw [hv, hu]
    simp only [List.append_assoc]
  · exact fun e he => (hvain e he).record?
  · exact fun e he => e.record?_of_isWork (hwork e he)

variable [BEq κ]

/-- Once the transition is taken, no timer that was armed before fires any more, whatever is done. -/
theorem Takes.retires {since : Duration} {d : Delayed κ} {v : Service κ} (h : Takes s since d u v r)
    (hs : s.Numbered) (hdelayed : ∀ t ∈ u.timers.pending, t.task.isDelayed = true)
    (ops : List Operation) :
    ∃ rest, (run ops r).service.journal = v.journal ++ rest ∧
      ∀ t clock, .fired t clock ∈ rest → .armed t ∉ s.journal := by
  have hrenewed : Renewed s.timers.nextId v := by
    have := renewed_commit hdelayed h.commit
    rwa [h.lull.nextId] at this
  obtain ⟨_, rest, hjournal, hfired⟩ := Steps.renewed (h.rest.trans (steps_run ops r)) hrenewed
  refine ⟨rest, hjournal, fun t clock ht harmed => ?_⟩
  have hlow := hs t harmed
  have hhigh := hfired _ ht t rfl
  omega

/-- The first delayed transition wins. Let a service run in a state since it was entered or the service
started, with no deferred event waiting. If no delayed transition of the state leads to another
declared one within the time of an advance, the clock moves and the timers that are due disappear;
nothing else changes, and nothing is heard. Otherwise the one with the least delay, and among equal
delays the first in the list, is the first to be committed, when it is due or at once if it is overdue;
and no timer that was armed before the advance fires ever after. -/
theorem contest_advance (machine : Machine κ) (options : Options κ) (channel : Nat)
    (calls : List (Call κ)) (b : Switchboard κ) {s r : Service κ} {since time : Duration}
    (hs : (attend calls (create machine options channel) b).1 = .completed s)
    (hrunning : s.status = .running) (hsince : s.entered? = some since)
    (hdelayed : ∀ t ∈ s.timers.pending, t.task.isDelayed = true)
    (hr : s.advance time = .completed r) :
    ((∀ index d, ¬ Contends s since time index d) ∧ Unmoved s time r ∧
      ∀ board, s.conduct (.advance time) board = (.completed r, board, [])) ∨
    ∃ index d, Contends s since time index d ∧
      (∀ j e, Contends s since time j e → d.delay < e.delay ∨ d.delay = e.delay ∧ index ≤ j) ∧
      ∃ u v, Takes s since d u v r ∧
        ∀ ops, ∃ rest, (run ops r).service.journal = v.journal ++ rest ∧
          ∀ t clock, .fired t clock ∈ rest → .armed t ∉ s.journal := by
  have hplace : s.InPlace := (inStep_of_attend hs).inPlace hrunning
  have hnumbered : s.Numbered := Steps.numbered (steps_of_attend hs) fun t ht => by simp at ht
  obtain ⟨limit, ts, w, hlimit, hdrains, hnow, _, rfl, _⟩ := drains_of_advance hr
  have hsum := Duration.add?_eq_some hlimit
  cases hdrains.contest rfl (lulled_self hplace limit) hrunning hdelayed with
  | lulled h hpop =>
    have hlate := h.late hpop
    have hunmoved := h.unmoved hplace hsince hdelayed hsum hnow hlate
    refine .inl ⟨not_contends_of_late (h.serves hsince) hsum hlate, hunmoved, fun board => ?_⟩
    obtain ⟨new, hnew, hvain⟩ := hunmoved.entries
    rw [conduct, show s.apply (.advance time) = _ from hr, Outcome.service_completed,
      since_eq_of_append hnew, Switchboard.relay_of_silent _ fun e he => (hvain e he).silent]
  | @won u v t timers index d h hpop htask hd hother hdecl hcommit hrest =>
    have hserves := h.serves hsince
    obtain ⟨hdue, hdeadline, htakes⟩ :=
      h.takes hserves hpop htask hd hcommit (hrest.tail .clocked)
    rw [Duration.le_def] at hdue
    have htaken : ∀ x ∈ (u.taken t timers).timers.pending, x.task.isDelayed = true :=
      fun x hx => hdelayed x (h.mem ((TimerQueue.mem_of_popDue? hpop x).2 (.inr hx)))
    refine .inr ⟨index, d, ⟨hd, hother, hdecl, by omega⟩, fun j e he => ?_, u.taken t timers, v,
      htakes, htakes.retires hnumbered htaken⟩
    exact least_of_popDue? hserves hpop htask hd he

end Service

/-- A junction at which one nanosecond is waited in vain, and after two the way goes left or right. -/
def junction : Machine Nat where
  initial := some "wait"
  states := .ofList
    [("wait", { after := [⟨⟨1, by decide⟩, "wait", []⟩, ⟨⟨2, by decide⟩, "left", []⟩,
        ⟨⟨2, by decide⟩, "right", []⟩] }),
      ("left", {}), ("right", {})]

/-- A service that has just been started at the junction. -/
def atJunction : Service Nat :=
  (({ Service.create junction {} 0 with status := .running } : Service Nat).log
    (.started .zero)).armDelayed.service

namespace Service

theorem attend_junction :
    (attend [.operate .start] (create junction {} 0) {}).1 = .completed atJunction := by
  have hstart : (create junction {} 0).start = .completed atJunction := settle_of_barren [] rfl
  exact attend_start hstart {}

theorem advance_atJunction : ∃ r, atJunction.advance ⟨4, by decide⟩ = .completed r := by
  have hlimit : atJunction.now.add? ⟨4, by decide⟩ = some ⟨4, by decide⟩ := by decide
  have hdrains : ∃ ts r,
      Drains ⟨4, by decide⟩ atJunction.timers.nextId atJunction ts (.completed r) :=
    ⟨_, _, .turn rfl rfl (.turn rfl (by exact settle_of_barren [] rfl) (.idle (by rfl)))⟩
  obtain ⟨ts, r, hdrains⟩ := hdrains
  exact ⟨_, advance_eq_of_drains hlimit hdrains⟩

/-- At the junction the way goes left: of the two transitions that are due first, that one is listed
first. -/
theorem contest_advance_junction :
    ∃ r u v, atJunction.advance ⟨4, by decide⟩ = .completed r ∧
      Takes atJunction .zero ⟨⟨2, by decide⟩, "left", []⟩ u v r := by
  obtain ⟨r, hr⟩ := advance_atJunction
  have hleft : Contends atJunction .zero ⟨4, by decide⟩ 1 ⟨⟨2, by decide⟩, "left", []⟩ :=
    ⟨rfl, by decide, rfl, by decide⟩
  obtain ⟨hnone, _⟩ | ⟨index, d, hd, hleast, u, v, htakes, _⟩ :=
    contest_advance junction {} 0 [.operate .start] {} attend_junction rfl rfl (by decide) hr
  · exact absurd hleft (hnone 1 _)
  · match index, hd.listed with
    | 0, h =>
      obtain rfl := Option.some.inj h
      exact absurd rfl hd.elsewhere
    | 1, h =>
      obtain rfl := Option.some.inj h
      exact ⟨r, u, v, hr, htakes⟩
    | 2, h =>
      obtain rfl := Option.some.inj h
      exact absurd (hleast 1 _ hleft) (by decide)
    | n + 3, h => cases h

end Service
end TimedMachine
