import TimedMachine.Proofs.Move

/-!
What is written into the journal. Only taking a timer writes that it fired, and only the delayed
transition that fired writes that it lapsed; no move writes either. A commit writes its record once
the exit actions have run.
-/
namespace TimedMachine

variable {κ : Type}

/-- What becomes of a timer that is taken. -/
def Entry.isTurn : Entry κ → Bool
  | .fired .. | .lapsed .. => true
  | _ => false

theorem Entry.isTurn_of_isWork (e : Entry κ) (h : e.isWork = true) : e.isTurn = false := by
  cases e <;> simp [Entry.isWork, Entry.isTurn] at *

namespace Service

/-- The journal has grown, by entries that say nothing of timers that were taken. -/
abbrev AddsNoTurn (s r : Service κ) : Prop := Adds (fun e => e.isTurn = false) s r

theorem Stays.addsNoTurn {s r : Service κ} (h : s.Stays r) : s.AddsNoTurn r :=
  h.entries.imp Entry.isTurn_of_isWork

theorem journal_arrive (target : String) (actions : List (Action κ)) (event : Event)
    (s : Service κ) :
    (s.arrive target actions event).journal =
      s.journal ++ [.committed ⟨s.current.value, target, event.kind, s.now, ()⟩] := by
  simp [arrive, journal]

/-- Work, then the record of a transition, then nothing of timers that are taken. -/
def Records (record : Record Unit) (es : List (Entry κ)) : Prop :=
  ∃ work rest, es = work ++ .committed record :: rest ∧ (∀ e ∈ work, e.isWork = true) ∧
    ∀ e ∈ rest, e.isTurn = false

theorem Records.isTurn {record : Record Unit} {es : List (Entry κ)} (h : Records record es) :
    ∀ e ∈ es, e.isTurn = false := by
  obtain ⟨work, rest, rfl, hwork, hrest⟩ := h
  intro e he
  rcases List.mem_append.1 he with he | he
  · exact e.isTurn_of_isWork (hwork e he)
  · rcases List.mem_cons.1 he with rfl | he
    · rfl
    · exact hrest e he

theorem Records.append {record : Record Unit} {es more : List (Entry κ)} (h : Records record es)
    (hmore : ∀ e ∈ more, e.isTurn = false) : Records record (es ++ more) := by
  obtain ⟨work, rest, rfl, hwork, hrest⟩ := h
  exact ⟨work, rest ++ more, by simp, hwork, List.forall_mem_append.2 ⟨hrest, hmore⟩⟩

/-- The journal has grown by the record of a transition, with only work before it. -/
def AddsRecord (record : Record Unit) (s r : Service κ) : Prop :=
  ∃ new, r.journal = s.journal ++ new ∧ Records record new

theorem AddsRecord.trans {record : Record Unit} {s r u : Service κ} (h : AddsRecord record s r)
    (hmore : r.AddsNoTurn u) : AddsRecord record s u := by
  obtain ⟨new, hr, hnew⟩ := h
  obtain ⟨more, hu, hmore⟩ := hmore
  refine ⟨new ++ more, ?_, hnew.append hmore⟩
  rw [hu, hr, List.append_assoc]

theorem addsRecord_arrive {s r : Service κ} (hwork : Adds (fun e => e.isWork = true) s r)
    (target : String) (actions : List (Action κ)) (event : Event) :
    AddsRecord ⟨r.current.value, target, event.kind, r.now, ()⟩ s (r.arrive target actions event) := by
  obtain ⟨work, hr, hwork⟩ := hwork
  refine ⟨work ++ [.committed ⟨r.current.value, target, event.kind, r.now, ()⟩], ?_, work, [], rfl,
    hwork, by simp⟩
  rw [journal_arrive, show r.journal = s.journal ++ work from hr, List.append_assoc]

/-- What follows the arrival in a commit takes no timer. -/
theorem addsNoTurn_arrived (event : Event) (actions : List (Action κ)) (s : Service κ) :
    s.AddsNoTurn ((execute event actions s).andThen fun u =>
      (execute event u.current.actions u).andThen fun v => v.notify.armDelayed).service := by
  refine (stays_execute event actions s).addsNoTurn.andThen fun u => ?_
  refine (stays_execute event u.current.actions u).addsNoTurn.andThen fun v => ?_
  have hnotified : v.AddsNoTurn v.notify := adds_log v rfl
  exact hnotified.trans ((arming_armEach _ _ _ _).entries.imp Entry.isTurn_of_isWork)

/-- A commit writes its record after the exit actions; it may be cut short during these. -/
theorem ends_commit_records (target : String) (actions : List (Action κ)) (event : Event)
    (s : Service κ) :
    (s.commit target actions event).Ends
      (AddsRecord ⟨s.current.value, target, event.kind, s.now, ()⟩ s)
      (fun r => AddsRecord ⟨s.current.value, target, event.kind, s.now, ()⟩ s r ∨
        Adds (fun e => e.isWork = true) s r) := by
  have hcancelled : Adds (fun e => e.isWork = true) s s.cancelDelayed := adds_log s rfl
  have hexit := stays_execute event (s.machine.exitOf s.current.value) s.cancelDelayed
  have hwork := hcancelled.trans hexit.entries
  unfold commit
  cases ho : execute event (s.machine.exitOf s.current.value) s.cancelDelayed with
  | overflowed r =>
    rw [ho] at hwork
    exact .inr hwork
  | completed r =>
    rw [ho] at hwork hexit
    have hvalue : r.current.value = s.current.value := hexit.value
    have hnow : r.now = s.now := hexit.timers.now
    have harrived := addsRecord_arrive hwork target actions event
    rw [Outcome.service_completed, hvalue, hnow] at harrived
    have hrecords := harrived.trans
      (addsNoTurn_arrived event (r.machine.entryOf target) (r.arrive target actions event))
    exact (Outcome.ends_of_service hrecords).imp (fun _ h => h) (fun _ h => .inl h)

/-- No move takes a timer. -/
theorem Move.addsNoTurn {s r : Service κ} (h : Move s r) : s.AddsNoTurn r := by
  cases h with
  | judged => exact adds_log s rfl
  | weighed => exact adds_log s rfl
  | skipped => exact adds_log s rfl
  | called => exact (s.stays_perform _ _).addsNoTurn
  | astray => exact adds_log s rfl
  | notified => exact adds_log s rfl
  | left => exact adds_log s rfl
  | cleared => exact s.stays_cancelDeferred.addsNoTurn
  | @armed index d hd =>
    exact (s.arming_arm d.delay s.current.value index).entries.imp Entry.isTurn_of_isWork
  | arrived => exact ⟨[.committed _], s.journal_arrive _ _ _, by simp [Entry.isTurn]⟩
  | revisited => exact adds_of_journal_eq _ rfl
  | changed => exact adds_of_journal_eq _ rfl

theorem Moves.addsNoTurn {s r : Service κ} (h : Moves s r) : s.AddsNoTurn r := by
  induction h with
  | refl => exact .refl _ s
  | tail _ hmove ih => exact ih.trans hmove.addsNoTurn

end Service
end TimedMachine
