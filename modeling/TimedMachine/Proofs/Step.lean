import TimedMachine.Proofs.Writing
import TimedMachine.Service.Operation

/-!
What a service does in operations, one `Step` at a time: its own moves, and besides them what a caller
or the clock brings about. What every step keeps is true of all that a service ever is, since every
run of operations is a chain of steps, whether or not it completes.
-/
namespace TimedMachine.Service

variable {κ : Type}

inductive Step : Service κ → Service κ → Prop
  | own {s r : Service κ} (hmove : Move s r) : Step s r
  | begun {s : Service κ} (hs : s.status = .stopped) :
      Step s ({ s with status := .running }.log (.started s.now))
  | halted {s : Service κ} (hs : s.status = .running) :
      Step s ({ s with status := .stopped, timers := s.timers.cancelAll }.log .stopped)
  | accepted {s : Service κ} {event : Event} (hs : s.status = .running) :
      Step s (s.log (.accepted event))
  | deferred {s : Service κ} {event : Event} {delay : Duration} (hs : s.status = .running) :
      Step s (s.defer event delay).service
  | lapsed {s : Service κ} {t : Timer} {state : String} {index : Nat} {why : Lapse}
      (htask : t.task = .delayed state index)
      (hwhy : Lapses s.machine s.current.value state index why) :
      Step s (s.log (.lapsed t why))
  | taken {s : Service κ} {limit : Duration} {horizon : Nat} {t : Timer} {timers : TimerQueue}
      (hpop : s.timers.popDue? limit horizon = some (t, timers)) : Step s (s.taken t timers)
  | clocked {s : Service κ} {now : Duration} : Step s (s.setNow now)
  | woke {s : Service κ} {deadline : Duration} : Step s (s.log (.woke deadline))
  | drained {s : Service κ} : Step s (s.log (.drained s.now))

/-- Any number of steps. -/
abbrev Steps : Service κ → Service κ → Prop := Relation.ReflTransGen Step

/-- What no step changes. -/
structure Continues (s r : Service κ) : Prop where
  machine : r.machine = s.machine
  options : r.options = s.options
  channel : r.channel = s.channel
  journal : Adds (fun _ => True) s r

theorem Continues.trans {s r u : Service κ} (h : s.Continues r) (k : r.Continues u) :
    s.Continues u :=
  ⟨k.machine.trans h.machine, k.options.trans h.options, k.channel.trans h.channel,
    h.journal.trans k.journal⟩

theorem Follows.continues {s r : Service κ} (h : s.Follows r) (hj : Adds (fun _ => True) s r) :
    s.Continues r := ⟨h.machine, h.options, h.channel, hj⟩

theorem Stays.continues {s r : Service κ} (h : s.Stays r) : s.Continues r :=
  h.toFollows.continues (h.entries.imp fun _ _ => trivial)

theorem continues_log (s : Service κ) (e : Entry κ) : s.Continues (s.log e) :=
  (s.follows_log e).continues (adds_log s trivial)

theorem Moves.continues {s r : Service κ} (h : Moves s r) : s.Continues r :=
  h.follows.continues (h.addsNoTurn.imp fun _ _ => trivial)

theorem Step.continues {s r : Service κ} (h : Step s r) : s.Continues r := by
  cases h with
  | own hmove => exact Moves.continues (.single hmove)
  | begun => exact ⟨rfl, rfl, rfl, [_], journal_log _ _, fun _ _ => trivial⟩
  | halted => exact ⟨rfl, rfl, rfl, [_], journal_log _ _, fun _ _ => trivial⟩
  | accepted => exact s.continues_log _
  | deferred => exact (s.stays_defer _ _).continues
  | lapsed => exact s.continues_log _
  | taken => exact ⟨rfl, rfl, rfl, adds_log s trivial⟩
  | clocked => exact ⟨rfl, rfl, rfl, adds_of_journal_eq _ rfl⟩
  | woke => exact s.continues_log _
  | drained => exact s.continues_log _

theorem Steps.continues {s r : Service κ} (h : Steps s r) : s.Continues r := by
  induction h with
  | refl => exact ⟨rfl, rfl, rfl, .refl _ s⟩
  | tail _ hstep ih => exact ih.trans hstep.continues

theorem Moves.steps {s r : Service κ} (h : Moves s r) : Steps s r :=
  Relation.ReflTransGen.mono (fun _ _ hmove => Step.own hmove) _ _ h

/-- A place in two lists put together is in the first or in the second. -/
theorem split_append {α : Type} {es fs before after : List α} {x : α}
    (h : es ++ fs = before ++ x :: after) :
    (∃ rest, es = before ++ x :: rest ∧ after = rest ++ fs) ∨
      ∃ late, before = es ++ late ∧ fs = late ++ x :: after := by
  rcases List.append_eq_append_iff.1 h with ⟨late, hbefore, hfs⟩ | ⟨mid, hes, htail⟩
  · exact .inr ⟨late, hbefore, hfs⟩
  · cases mid with
    | nil => exact .inr ⟨[], by simpa using hes.symm, by simpa using htail.symm⟩
    | cons y rest =>
      obtain ⟨rfl, hafter⟩ := List.cons.inj htail
      exact .inl ⟨rest, hes, hafter⟩

/-- The last place of a list, unless the place is an earlier one. -/
theorem split_concat {α : Type} {es before after : List α} {a x : α}
    (h : es ++ [a] = before ++ x :: after) :
    (∃ rest, es = before ++ x :: rest ∧ after = rest ++ [a]) ∨
      (before = es ∧ x = a ∧ after = []) := by
  refine (split_append h).imp_right ?_
  rintro ⟨late, hbefore, hlast⟩
  cases late with
  | nil =>
    obtain ⟨ha, hafter⟩ := List.cons.inj hlast
    exact ⟨by simpa using hbefore, ha.symm, hafter.symm⟩
  | cons y rest => simp at hlast

/-- An entry that a chain of changes has written was written by one of them. -/
theorem exists_writer {R : Service κ → Service κ → Prop}
    (hgrows : ∀ s r, R s r → Adds (fun _ => True) s r) {s r : Service κ}
    (h : Relation.ReflTransGen R s r) {before after : List (Entry κ)} {e : Entry κ}
    (hr : r.journal = s.journal ++ (before ++ e :: after)) :
    ∃ u v first rest, Relation.ReflTransGen R s u ∧ R u v ∧ Relation.ReflTransGen R v r ∧
      s.journal ++ before = u.journal ++ first ∧
      v.journal = u.journal ++ (first ++ e :: rest) := by
  have hall {s r : Service κ} (h : Relation.ReflTransGen R s r) : Adds (fun _ => True) s r := by
    induction h with
    | refl => exact .refl _ s
    | tail _ hstep ih => exact ih.trans (hgrows _ _ hstep)
  induction h using Relation.ReflTransGen.head_induction_on generalizing before with
  | refl => simp at hr
  | @head s v hstep hrest ih =>
    obtain ⟨new, hv, _⟩ := hgrows _ _ hstep
    obtain ⟨more, hmore, _⟩ := hall hrest
    have hsplit : new ++ more = before ++ e :: after := by
      rw [hmore, hv, List.append_assoc] at hr
      exact List.append_cancel_left hr
    -- The entry is among those of the first change, or it comes later.
    rcases split_append hsplit with ⟨rest, hnew, _⟩ | ⟨late, hbefore, hlate⟩
    · exact ⟨s, v, before, rest, .refl, hstep, hrest, rfl, by rw [hv, hnew]⟩
    · obtain ⟨u, w, first, rest, hu, hwrote, hw, hfirst, hrest⟩ := ih (hlate ▸ hmore)
      rw [hv, List.append_assoc, ← hbefore] at hfirst
      exact ⟨u, w, first, rest, .head hstep hu, hwrote, hw, hfirst, hrest⟩

/-- Every move keeps the queue's note of its deferred event. -/
theorem Move.slot {s r : Service κ} (h : Move s r) (hs : s.timers.Slot) : r.timers.Slot := by
  cases h with
  | judged => exact hs
  | weighed => exact hs
  | skipped => exact hs
  | called => exact (s.stays_perform _ _).slot hs
  | astray => exact hs
  | notified => exact hs
  | left => exact hs.cancelDelayed
  | cleared => exact hs.cancelDeferred
  | armed => exact (s.arming_arm _ _ _).slot hs
  | arrived => exact hs
  | revisited => exact hs
  | changed => exact hs

theorem Step.slot {s r : Service κ} (h : Step s r) (hs : s.timers.Slot) : r.timers.Slot := by
  cases h with
  | own hmove => exact hmove.slot hs
  | begun => exact hs
  | halted => exact TimerQueue.slot_cancelAll _
  | accepted => exact hs
  | deferred => exact (s.stays_defer _ _).slot hs
  | lapsed => exact hs
  | taken hpop => exact TimerQueue.slot_of_popDue? hpop hs
  | clocked => exact hs.setNow _
  | woke => exact hs
  | drained => exact hs

theorem Steps.slot {s r : Service κ} (h : Steps s r) (hs : s.timers.Slot) : r.timers.Slot := by
  induction h with
  | refl => exact hs
  | tail _ hstep ih => exact hstep.slot ih

end TimedMachine.Service
