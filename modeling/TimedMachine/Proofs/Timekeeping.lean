import TimedMachine.Proofs.Shortfall
import TimedMachine.Proofs.Waking

/-!
The time that a timed run keeps. Its loop is a chain of `Wakes`, each of which sleeps until the next
deadline and drains it; after that nothing is due before the deadline, so the next one is later or
the loop is over. That bounds the number of iterations, and leaves the clock at the limit in the end
(`keepsTime_runFor`).
-/
namespace TimedMachine

variable {κ : Type}

namespace Entry

/-- The deadline that a timed run slept until. -/
def woke? : Entry κ → Option Duration
  | .woke deadline => some deadline
  | _ => none

/-- The reading of the clock after a drain of a timed run. -/
def drained? : Entry κ → Option Duration
  | .drained clock => some clock
  | _ => none

/-- The reading of the clock that an entry tells. -/
def reading? : Entry κ → Option Duration
  | .started clock | .fired _ clock | .drained clock => some clock
  | .committed r => some r.clock
  | _ => none

/-- What is written between one waking and the next, the clock showing the given time. -/
structure Meanwhile (now : Duration) (e : Entry κ) : Prop where
  waking : e.isWaking = false
  reading : ∀ reading, e.reading? = some reading → reading = now

theorem meanwhile_of_isWork (now : Duration) (e : Entry κ) (h : e.isWork = true) :
    e.Meanwhile now := by
  cases e <;> constructor <;> simp [isWork, isWaking, reading?] at *

/-- The deadlines that entries tell of sleeping until. -/
def wakings (es : List (Entry κ)) : List Duration := es.filterMap woke?

/-- The readings of the clock that entries tell of at the end of a drain. -/
def drainings (es : List (Entry κ)) : List Duration := es.filterMap drained?

theorem wakings_of_isWaking {es : List (Entry κ)} (h : ∀ e ∈ es, e.isWaking = false) :
    wakings es = [] := by
  refine List.filterMap_eq_nil_iff.2 fun e he => ?_
  have hwaking := h e he
  cases e <;> simp [isWaking, woke?] at *

theorem drainings_of_isWaking {es : List (Entry κ)} (h : ∀ e ∈ es, e.isWaking = false) :
    drainings es = [] := by
  refine List.filterMap_eq_nil_iff.2 fun e he => ?_
  have hwaking := h e he
  cases e <;> simp [isWaking, drained?] at *

@[simp] theorem wakings_append (es fs : List (Entry κ)) :
    wakings (es ++ fs) = wakings es ++ wakings fs := List.filterMap_append

@[simp] theorem drainings_append (es fs : List (Entry κ)) :
    drainings (es ++ fs) = drainings es ++ drainings fs := List.filterMap_append

@[simp] theorem wakings_woke (deadline : Duration) (es : List (Entry κ)) :
    wakings (.woke deadline :: es) = deadline :: wakings es := rfl

@[simp] theorem drainings_woke (deadline : Duration) (es : List (Entry κ)) :
    drainings (.woke deadline :: es) = drainings es := rfl

@[simp] theorem wakings_drained (clock : Duration) (es : List (Entry κ)) :
    wakings (.drained clock :: es) = wakings es := rfl

@[simp] theorem drainings_drained (clock : Duration) (es : List (Entry κ)) :
    drainings (.drained clock :: es) = clock :: drainings es := rfl

end Entry

namespace Service

theorem meanwhile_log (s : Service κ) {e : Entry κ} (hwaking : e.isWaking = false)
    (hreading : e.reading? = none) : Adds (Entry.Meanwhile s.now) s (s.log e) :=
  adds_log s ⟨hwaking, by simp [hreading]⟩

theorem Move.meanwhile {s r : Service κ} (h : Move s r) : Adds (Entry.Meanwhile s.now) s r := by
  cases h with
  | judged => exact s.meanwhile_log rfl rfl
  | weighed => exact s.meanwhile_log rfl rfl
  | skipped => exact s.meanwhile_log rfl rfl
  | called => exact (s.stays_perform _ _).entries.imp (Entry.meanwhile_of_isWork _)
  | astray => exact s.meanwhile_log rfl rfl
  | notified => exact s.meanwhile_log rfl rfl
  | left => exact s.meanwhile_log rfl rfl
  | cleared => exact s.stays_cancelDeferred.entries.imp (Entry.meanwhile_of_isWork _)
  | @armed index d =>
    have harming := s.arming_arm d.delay s.current.value index
    exact harming.entries.imp (Entry.meanwhile_of_isWork _)
  | arrived =>
    refine ⟨[_], s.journal_arrive _ _ _, fun e he => ?_⟩
    obtain rfl := List.mem_singleton.1 he
    exact ⟨rfl, fun _ h => (Option.some.inj h).symm⟩
  | revisited => exact adds_of_journal_eq _ rfl
  | changed => exact adds_of_journal_eq _ rfl

theorem Moves.meanwhile {s r : Service κ} (h : Moves s r) : Adds (Entry.Meanwhile s.now) s r := by
  induction h with
  | refl => exact .refl _ s
  | @tail u v hmoves hmove ih =>
    have hnow : u.now = s.now := (Moves.follows hmoves).timers.now
    have hlast := hmove.meanwhile
    rw [hnow] at hlast
    exact ih.trans hlast

/-- No reading of the clock that is told on the way is later than the clock in the end. -/
abbrev Tells (s r : Service κ) : Prop :=
  Adds (fun e => ∀ reading, e.reading? = some reading → reading ≤ r.now) s r

theorem Step.tells {s r : Service κ} (h : Step s r) : Tells s r := by
  have hlog (s : Service κ) {e : Entry κ} (he : ∀ reading, e.reading? = some reading → reading = s.now) :
      Tells s (s.log e) := adds_log s fun _ hin => Nat.le_of_eq (congrArg Duration.nanos (he _ hin))
  cases h with
  | own hmove =>
    have hnow : r.now = s.now := hmove.follows.timers.now
    refine hmove.meanwhile.imp fun e he reading hin => ?_
    rw [he.reading reading hin, hnow]
    exact Nat.le_refl _
  | begun =>
    refine ⟨[_], journal_log _ _, fun e he reading hin => ?_⟩
    obtain rfl := List.mem_singleton.1 he
    obtain rfl := Option.some.inj hin
    exact Nat.le_refl _
  | halted => exact ⟨[_], journal_log _ _, by simp [Entry.reading?]⟩
  | accepted => exact hlog s (by simp [Entry.reading?])
  | deferred =>
    refine (s.stays_defer _ _).entries.imp fun e he reading hin => ?_
    cases e <;> simp [Entry.isWork, Entry.reading?] at he hin
  | lapsed => exact hlog s (by simp [Entry.reading?])
  | taken =>
    refine s.adds_withTimers _ fun reading hin => ?_
    obtain rfl := Option.some.inj hin
    exact Nat.le_refl _
  | clocked => exact adds_of_journal_eq _ rfl
  | woke => exact hlog s (by simp [Entry.reading?])
  | drained => exact hlog s fun _ hin => (Option.some.inj hin).symm

theorem Steps.tells {s r : Service κ} (h : Steps s r) : Tells s r := by
  induction h with
  | refl => exact .refl _ s
  | tail _ hstep ih =>
    exact (ih.imp fun e he reading hin => Nat.le_trans (he reading hin) hstep.now_le).trans hstep.tells

/-- A timed run under way: the deadline that it drained last, and the service as it is. -/
structure Watch (κ : Type) where
  last : Option Duration := none
  service : Service κ

/-- What every iteration keeps: nothing is due before the deadline drained last, and the clock is
within the limit. -/
structure Watch.Kept (limit : Duration) (w : Watch κ) : Prop where
  notBefore : ∀ instant ∈ w.last, w.service.timers.NotBefore instant
  now : w.service.now ≤ limit

/-- The next deadline is later than the one drained last, unless it is the same. -/
theorem Watch.Kept.lt {limit : Duration} {w : Watch κ} {deadline : Duration}
    (h : w.Kept limit)
    (hnext : w.service.timers.nextDeadline = some deadline) (hlast : w.last ≠ some deadline) :
    ∀ instant ∈ w.last, instant < deadline := by
  intro instant hin
  have hle := (h.notBefore instant hin).le_nextDeadline hnext
  refine Nat.lt_of_le_of_ne hle fun heq => hlast ?_
  rw [← Duration.ext heq]
  exact hin

variable [BEq κ] {limit : Duration} {horizon : Nat}

/-- No drain says anything of waking. -/
theorem Drains.adds_not_isWaking {s : Service κ} {ts : List Timer} {o : Outcome κ}
    (h : Drains limit horizon s ts o) : Adds (fun e => e.isWaking = false) s o.service := by
  have hturn (s : Service κ) (t : Timer) (timers : TimerQueue) :
      Adds (fun e => e.isWaking = false) s ((s.taken t timers).fire t).service := by
    have htaken : Adds (fun e => e.isWaking = false) s (s.taken t timers) :=
      s.adds_withTimers timers rfl
    refine htaken.trans ?_
    rcases moves_fire t (s.taken t timers) with ⟨_, _, why, _, _, hlapsed⟩ | hmoves
    · rw [hlapsed]
      exact adds_log _ rfl
    · exact (Moves.meanwhile hmoves).imp fun _ he => he.waking
  induction h with
  | idle => exact .refl _ _
  | @cut s r t timers _ hfire =>
    have hcut := hturn s t timers
    rwa [hfire] at hcut
  | @turn s r t timers ts o _ hfire _ ih =>
    have hdone := hturn s t timers
    rw [hfire] at hdone
    exact hdone.trans ih

theorem adds_advance_not_isWaking (time : Duration) (s : Service κ) :
    Adds (fun e => e.isWaking = false) s (s.advance time).service := by
  cases hlimit : s.now.add? time with
  | none =>
    simp only [advance, hlimit]
    exact .refl _ s
  | some limit =>
    obtain ⟨ts, hts⟩ := drains_drain limit s (Nat.le_refl s.timers.nextId)
    rw [advance_eq_of_drains hlimit hts]
    exact hts.adds_not_isWaking.andThen fun r => adds_of_journal_eq _ rfl

theorem Drains.now_le {s : Service κ} {ts : List Timer} {o : Outcome κ}
    (h : Drains limit horizon s ts o) (hs : s.now ≤ limit) : o.service.now ≤ limit := by
  induction h with
  | idle => exact hs
  | @cut s r t timers hpop hfire =>
    obtain ⟨_, hdue, _, hnow, _⟩ := TimerQueue.popDue?_eq_some hpop
    have hclock : ((s.taken t timers).fire t).service.timers.now = timers.now :=
      (follows_fire t (s.taken t timers)).timers.now
    rw [hfire] at hclock
    show r.timers.now ≤ limit
    rw [show r.timers.now = timers.now from hclock, hnow, Duration.le_def, Duration.nanos_later]
    exact Nat.max_le.2 ⟨hs, hdue⟩
  | turn hpop hfire _ ih => exact ih (Turn.now_le ⟨_, _, hpop, hfire⟩ hs)

/-- However it ends, an advance does not move the clock past the end of its window. -/
theorem now_advance_le {s : Service κ} {time : Duration} (hlimit : s.now.add? time = some limit) :
    (s.advance time).service.now ≤ limit := by
  obtain ⟨ts, hts⟩ := drains_drain limit s (Nat.le_refl s.timers.nextId)
  have hsum := Duration.add?_eq_some hlimit
  have hle := hts.now_le (by rw [Duration.le_def]; omega)
  rw [advance_eq_of_drains hlimit hts]
  cases ho : s.drain limit s.timers.nextId (Nat.le_refl _) with
  | overflowed r =>
    rw [ho] at hle
    exact hle
  | completed r =>
    rw [ho] at hle
    show r.timers.now.later limit ≤ limit
    rw [Duration.le_def, Duration.nanos_later]
    exact Nat.max_le.2 ⟨hle, Nat.le_refl _⟩

/-- One iteration of the loop of a timed run: the next deadline, if it is within the limit and not the
one just drained, is slept until and drained. -/
inductive Wakes (limit : Duration) : Watch κ → Watch κ → Prop
  | mk {last : Option Duration} {s r : Service κ} {deadline : Duration}
      (hnext : s.timers.nextDeadline = some deadline) (hlimit : deadline ≤ limit)
      (hlast : last ≠ some deadline)
      (hrun : (s.log (.woke deadline)).advance (deadline.minus s.now) = .completed r) :
      Wakes limit ⟨last, s⟩ ⟨some deadline, r.log (.drained r.now)⟩

/-- After a drain the clock shows its deadline, unless it was past that already. -/
theorem Wakes.now {w v : Watch κ} (h : Wakes limit w v) {deadline : Duration}
    (hlast : v.last = some deadline) : v.service.now = w.service.now.later deadline := by
  cases h with | @mk last s r instant _ _ _ hrun
  obtain rfl := Option.some.inj hlast
  have hclock : r.now = (s.log (.woke instant)).now.later instant := now_of_advance_minus hrun
  exact hclock

/-- After a drain nothing is due before its deadline. -/
theorem Wakes.notBefore {w v : Watch κ} (h : Wakes limit w v) :
    ∀ instant ∈ v.last, v.service.timers.NotBefore instant := by
  cases h with | @mk last s r deadline hnext _ _ hrun
  intro instant hin
  obtain rfl := Option.some.inj hin
  have hdrained := (s.log (.woke deadline)).notBefore_advance (deadline.minus s.now)
    (TimerQueue.notBefore_of_nextDeadline hnext)
  rwa [hrun] at hdrained

/-- An iteration drains a later deadline than the one before. -/
theorem Wakes.kept {w v : Watch κ} (h : Wakes limit w v) (hw : w.Kept limit) :
    v.Kept limit ∧ ahead limit v.last < ahead limit w.last := by
  have hnotBefore := h.notBefore
  have hclock {deadline : Duration} (hlast : v.last = some deadline) := h.now hlast
  cases h with | @mk last s r deadline hnext hlimit hlast hrun
  refine ⟨⟨hnotBefore, ?_⟩, ?_⟩
  · rw [hclock rfl, Duration.le_def, Duration.nanos_later]
    exact Nat.max_le.2 ⟨hw.now, hlimit⟩
  · exact ahead_lt hlimit (fun _ hin => (hw.notBefore _ hin).le_nextDeadline hnext) hlast

/-- No timed run wakes more often than its limit has nanoseconds, and once more at their start. -/
theorem exists_not_wakes (watches : Nat → Watch κ) (h : (watches 0).Kept limit) :
    ∃ n ≤ limit.nanos + 1, ¬ Wakes limit (watches n) (watches (n + 1)) := by
  by_contra hall
  have hwakes : ∀ n ≤ limit.nanos + 1, Wakes limit (watches n) (watches (n + 1)) := by
    intro n hn
    by_contra hnot
    exact hall ⟨n, hn, hnot⟩
  have hfalls : ∀ n ≤ limit.nanos + 2, (watches n).Kept limit ∧
      ahead limit (watches n).last + n ≤ limit.nanos + 1 := by
    intro n
    induction n with
    | zero =>
      refine fun _ => ⟨h, ?_⟩
      cases hlast : (watches 0).last with
      | none => exact Nat.le_refl _
      | some last => exact Nat.le_succ_of_le (Nat.sub_le _ _)
    | succ n ih =>
      intro hn
      obtain ⟨hkept, hle⟩ := ih (by omega)
      obtain ⟨hnext, hlt⟩ := (hwakes n (by omega)).kept hkept
      exact ⟨hnext, by omega⟩
  have hlast := (hfalls (limit.nanos + 2) (Nat.le_refl _)).2
  omega

/-- What is written from the moment of waking to the end of the drain. -/
theorem journal_woken (deadline time : Duration) (s : Service κ) :
    ∃ inner, ((s.log (.woke deadline)).advance time).service.journal =
        s.journal ++ .woke deadline :: inner ∧ ∀ e ∈ inner, e.isWaking = false := by
  obtain ⟨inner, hr, hinner⟩ := (s.log (.woke deadline)).adds_advance_not_isWaking time
  exact ⟨inner, by rw [hr, journal_log, List.append_assoc]; rfl, hinner⟩

/-- The deadlines that the rest of a timed run sleeps until. -/
theorem Sleeps.wakings {last : Option Duration} {s : Service κ} {o : Outcome κ}
    (h : Sleeps limit last s o) (hw : Watch.Kept limit ⟨last, s⟩) :
    ∃ new, o.service.journal = s.journal ++ new ∧
      (Entry.wakings new).Pairwise (· < ·) ∧
      ∀ deadline ∈ Entry.wakings new,
        deadline ≤ limit ∧ ∀ instant ∈ last, instant < deadline := by
  induction h with
  | idle => exact ⟨[], by simp [Entry.wakings]⟩
  | late => exact ⟨[], by simp [Entry.wakings]⟩
  | held => exact ⟨[], by simp [Entry.wakings]⟩
  | @cut last s r deadline hnext hlimit hlast hrun =>
    obtain ⟨inner, hr, hinner⟩ := s.journal_woken deadline (deadline.minus s.now)
    rw [hrun] at hr
    refine ⟨_, hr, ?_⟩
    rw [Entry.wakings_woke, Entry.wakings_of_isWaking hinner]
    refine ⟨List.pairwise_singleton _ _, fun d hd => ?_⟩
    obtain rfl := List.mem_singleton.1 hd
    exact ⟨hlimit, hw.lt hnext hlast⟩
  | @turn last s r deadline o hnext hlimit hlast hrun _ ih =>
    have hwakes : Wakes limit ⟨last, s⟩ _ := .mk hnext hlimit hlast hrun
    obtain ⟨inner, hr, hinner⟩ := s.journal_woken deadline (deadline.minus s.now)
    obtain ⟨new, ho, hascending, hahead⟩ := ih (hwakes.kept hw).1
    rw [hrun, Outcome.service_completed] at hr
    refine ⟨.woke deadline :: (inner ++ .drained r.now :: new), ?_, ?_⟩
    · simp [ho, hr]
    · rw [Entry.wakings_woke, Entry.wakings_append, Entry.wakings_of_isWaking hinner,
        List.nil_append, Entry.wakings_drained]
      refine ⟨List.pairwise_cons.2 ⟨fun d hd => (hahead d hd).2 deadline rfl, hascending⟩, ?_⟩
      intro d hd
      rcases List.mem_cons.1 hd with rfl | hd
      · exact ⟨hlimit, hw.lt hnext hlast⟩
      · refine ⟨(hahead d hd).1, fun instant hin => ?_⟩
        exact Nat.lt_trans (hw.lt hnext hlast instant hin) ((hahead d hd).2 deadline rfl)

theorem now_advance_minus_le (deadline : Duration) (s : Service κ) :
    (s.advance (deadline.minus s.now)).service.now ≤ s.now.later deadline :=
  now_advance_le add?_minus

theorem Sleeps.now_le {last : Option Duration} {s : Service κ} {o : Outcome κ}
    (h : Sleeps limit last s o) (hs : s.now ≤ limit) : o.service.now ≤ limit := by
  have hlater {s : Service κ} {deadline : Duration} (hs : s.now ≤ limit) (hlimit : deadline ≤ limit) :
      s.now.later deadline ≤ limit := by
    rw [Duration.le_def, Duration.nanos_later]
    exact Nat.max_le.2 ⟨hs, hlimit⟩
  induction h with
  | idle => exact hs
  | late => exact hs
  | held => exact hs
  | @cut last s r deadline hnext hlimit hlast hrun =>
    have hle : ((s.log (.woke deadline)).advance (deadline.minus s.now)).service.now ≤
        s.now.later deadline := now_advance_minus_le deadline (s.log (.woke deadline))
    rw [hrun] at hle
    exact Nat.le_trans hle (hlater hs hlimit)
  | @turn last s r deadline o hnext hlimit hlast hrun _ ih =>
    have hwakes : Wakes limit ⟨last, s⟩ _ := .mk hnext hlimit hlast hrun
    refine ih ?_
    rw [show (r.log (.drained r.now)).now = _ from hwakes.now rfl]
    exact hlater hs hlimit

theorem Sleeps.endsInTime {last : Option Duration} {s : Service κ} {o : Outcome κ}
    (h : Sleeps limit last s o) : s.EndsInTime o := by
  have hwoken (s : Service κ) (deadline : Duration) :
      s.EndsInTime ((s.log (.woke deadline)).advance (deadline.minus s.now)) := by
    have hlogged : Adds (fun _ => True) s (s.log (.woke deadline)) := adds_log s trivial
    exact hlogged.endsInTime (endsInTime_advance add?_minus)
  induction h with
  | idle => exact .refl _ _
  | late => exact .refl _ _
  | held => exact .refl _ _
  | @cut last s r deadline _ _ _ hrun => exact hrun ▸ hwoken s deadline
  | @turn last s r deadline o _ _ _ hrun _ ih =>
    have hdone := hwoken s deadline
    rw [hrun] at hdone
    exact (Adds.trans hdone (adds_log r trivial)).endsInTime ih

/-- A timed run is its loop and an advance over what is left of its time. -/
theorem exists_sleeps_runFor {time : Duration} {s : Service κ} (hlimit : s.now.add? time = some limit) :
    ∃ o, Sleeps limit none s o ∧ s.runFor time = o.andThen fun r => r.advance (limit.minus r.now) := by
  refine ⟨_, sleeps_sleep limit none s (by simp), ?_⟩
  simp only [runFor, hlimit]

/-- After the loop a timed run tells no more of waking. -/
theorem since_andThen_advance (limit : Duration) {s : Service κ} {o : Outcome κ} {new : List (Entry κ)}
    (ho : o.service.journal = s.journal ++ new) :
    ∃ rest, (o.andThen fun r => r.advance (limit.minus r.now)).service.since s = new ++ rest ∧
      ∀ e ∈ rest, e.isWaking = false := by
  cases o with
  | overflowed r => exact ⟨[], by rw [List.append_nil]; exact since_eq_of_append ho, by simp⟩
  | completed r =>
    obtain ⟨rest, hr, hrest⟩ := r.adds_advance_not_isWaking (limit.minus r.now)
    refine ⟨rest, since_eq_of_append ?_, hrest⟩
    rw [Outcome.completed_andThen, hr, show r.journal = _ from ho, List.append_assoc]

/-- A timed run that completes ends at its limit, and one that is cut short not past it. -/
theorem Sleeps.ends_at_limit {s : Service κ} {o : Outcome κ} (h : Sleeps limit none s o)
    (hnow : s.now ≤ limit) :
    (o.andThen fun r => r.advance (limit.minus r.now)).Ends (fun r => r.now = limit)
      (fun r => r.now ≤ limit ∧ s.CutShort r) := by
  have hslept := h.now_le hnow
  have hends := h.endsInTime
  cases o with
  | overflowed r => exact ⟨hslept, hends⟩
  | completed r =>
    have hlater : r.now.later limit = limit := if_pos hslept
    have hrest : r.EndsInTime (r.advance (limit.minus r.now)) := endsInTime_advance add?_minus
    have hcut := Adds.endsInTime hends hrest
    have hle := r.now_advance_minus_le limit
    rw [hlater] at hle
    rw [Outcome.completed_andThen]
    cases hlast : r.advance (limit.minus r.now) with
    | overflowed u =>
      rw [hlast] at hcut hle
      exact ⟨hle, hcut⟩
    | completed u => exact (now_of_advance_minus hlast).trans hlater

/-- What is true of the way through a timed run, however it ends. -/
structure KeepsTime (limit : Duration) (s r : Service κ) : Prop where
  /-- The deadlines that it sleeps until and drains are strictly increasing. -/
  ascending : (Entry.wakings (r.since s)).Pairwise (· < ·)
  within : ∀ deadline ∈ Entry.wakings (r.since s), deadline ≤ limit
  /-- Nowhere on the way is the clock past the limit. -/
  clock : ∀ u, Steps s u → Steps u r → u.now ≤ limit
  /-- No reading of the clock is told that is past the limit. -/
  told : ∀ e ∈ r.since s, ∀ reading, e.reading? = some reading → reading ≤ limit

/-- Whatever the actions do, and however many timers are overdue or held back at first, a timed run is
a finite loop and one more advance. Its deadlines are strictly increasing up to the limit, the clock
never passes the limit, and in the end it shows the limit, unless a sum of times did not exist for a
delay that the machine declares or an action asks for. -/
theorem keepsTime_runFor (time : Duration) (s : Service κ) :
    match s.now.add? time with
    | none => s.runFor time = .overflowed s
    | some limit =>
      (∀ watches : Nat → Watch κ, watches 0 = ⟨none, s⟩ →
        ∃ n ≤ limit.nanos + 1, ¬ Wakes limit (watches n) (watches (n + 1))) ∧
      (∃ o, Sleeps limit none s o ∧
        s.runFor time = o.andThen fun r => r.advance (limit.minus r.now)) ∧
      KeepsTime limit s (s.runFor time).service ∧
      (s.runFor time).Ends (fun r => r.now = limit) s.CutShort := by
  cases hlimit : s.now.add? time with
  | none => simp [runFor, hlimit]
  | some limit =>
    have hsum := Duration.add?_eq_some hlimit
    have hnow : s.now ≤ limit := by
      rw [Duration.le_def]
      omega
    have hstart : Watch.Kept limit ⟨none, s⟩ := ⟨by simp, hnow⟩
    have hsteps : Steps s (s.runFor time).service := s.steps_apply (.runFor time)
    obtain ⟨o, hsleeps, hrun⟩ := exists_sleeps_runFor hlimit
    obtain ⟨new, ho, hascending, hwithin⟩ := hsleeps.wakings hstart
    obtain ⟨rest, hsince, hrest⟩ := since_andThen_advance limit ho
    have hend := hsleeps.ends_at_limit hnow
    rw [← hrun] at hsince hend
    have hwakings : Entry.wakings ((s.runFor time).service.since s) = Entry.wakings new := by
      rw [hsince, Entry.wakings_append, Entry.wakings_of_isWaking hrest, List.append_nil]
    have hle : (s.runFor time).service.now ≤ limit :=
      (hend.imp (fun r hr => Nat.le_of_eq (congrArg Duration.nanos hr)) (fun r hr => hr.1)).service
    refine ⟨?_, ⟨o, hsleeps, hrun⟩, ⟨?_, ?_, ?_, ?_⟩, hend.imp (fun _ hr => hr) (fun _ hr => hr.2)⟩
    · intro watches hzero
      exact exists_not_wakes watches (hzero ▸ hstart)
    · rwa [hwakings]
    · rw [hwakings]
      exact fun deadline hin => (hwithin deadline hin).1
    · exact fun u _ hu => Nat.le_trans (Steps.now_le hu) hle
    · obtain ⟨told, htold, hreadings⟩ := Steps.tells hsteps
      rw [since_eq_of_append htold]
      exact fun e he reading hin => Nat.le_trans (hreadings e he reading hin) hle

end Service
end TimedMachine
