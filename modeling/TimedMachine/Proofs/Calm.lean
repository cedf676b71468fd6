import TimedMachine.Proofs.Move

/-!
Services in which no timer is ever held back. A machine is unhurried if it declares no delayed
transition without a delay and none of the actions it mentions ever asks for a delivery without one.
Then the service arms no immediate timer of its own accord, so the queue stays `Calm`: what it takes
depends on the deadlines alone, and neither on the horizon nor on the clock.
-/
namespace TimedMachine

variable {κ : Type}

/-- No delayed transition, and no delivery that an action asks for, is without a delay. -/
structure Machine.Unhurried (m : Machine κ) (o : Options κ) : Prop where
  after : ∀ state, ∀ d ∈ m.afterOf state, d.delay ≠ .zero
  sends : ∀ action, m.Mentions action → ∀ run, o.resolve action = some run →
    ∀ context event later, (run context event).effect ≠ .send later .zero

/-- A bell that rings a second after it was asked for. -/
def ring : Action Nat := .direct fun _ _ => ⟨.send ⟨"bell", .null⟩ ⟨1000000000, by decide⟩, []⟩

/-- The light of a crossing: red for three seconds and green for two. It counts its green phases, and
the bell rings in each red one. -/
def crossing : Machine Nat where
  initial := some "red"
  context := some 0
  states := .ofList
    [("red", { entry := [ring], after := [⟨⟨3000000000, by decide⟩, "green", []⟩] }),
      ("green", { entry := [.named "count"], after := [⟨⟨2000000000, by decide⟩, "red", []⟩] })]

def crossingOptions : Options Nat where
  actions := .ofList [("count", fun _ _ => ⟨.assign (· + 1), []⟩)]

theorem after_crossing {state : String} {d : Delayed Nat} (hd : d ∈ crossing.afterOf state) :
    d.delay = ⟨3000000000, by decide⟩ ∨ d.delay = ⟨2000000000, by decide⟩ := by
  obtain ⟨node, hnode, hd⟩ := Machine.find?_of_mem_getD hd
  have hmem : (state, node) ∈ crossing.states.entries := Table.mem_entries_of_find? hnode
  have hall : ∀ e ∈ crossing.states.entries, ∀ d ∈ e.2.after,
      d.delay = ⟨3000000000, by decide⟩ ∨ d.delay = ⟨2000000000, by decide⟩ := by
    show ∀ e ∈ [_, _], _
    simp
  exact hall _ hmem d hd

theorem mentions_crossing {action : Action Nat} (h : crossing.Mentions action) :
    action = ring ∨ action = .named "count" := by
  obtain ⟨state, node, actions, hnode, hactions, haction⟩ := h
  have hmem : (state, node) ∈ crossing.states.entries := Table.mem_entries_of_find? hnode
  have hall : ∀ e ∈ crossing.states.entries, ∀ l ∈ e.2.actionLists, ∀ a ∈ l,
      a = ring ∨ a = .named "count" := by
    show ∀ e ∈ [_, _], _
    simp [Node.actionLists, Table.empty]
  exact hall _ hmem _ hactions _ haction

theorem unhurried_crossing : crossing.Unhurried crossingOptions := by
  constructor
  · intro state d hd
    rcases after_crossing hd with h | h <;> simp [h, Duration.eq_iff, Duration.zero]
  · intro action haction run hrun context event later
    rcases mentions_crossing haction with rfl | rfl
    · obtain rfl := Option.some.inj hrun
      simp [Duration.eq_iff, Duration.zero]
    · obtain rfl := Option.some.inj hrun
      simp

namespace TimerQueue

variable {q r : TimerQueue} {limit : Duration} {horizon : Nat}

/-- The immediate timers that wait are all numbered below the horizon. -/
def Calm (q : TimerQueue) (horizon : Nat) : Prop :=
  ∀ t ∈ q.pending, t.immediate = true → t.key.id < horizon

theorem calm_nextId (q : TimerQueue) : q.Calm q.nextId := fun t ht _ => q.fresh t ht

theorem Calm.of_subset (h : q.Calm horizon) (hsub : ∀ t ∈ r.pending, t ∈ q.pending) :
    r.Calm horizon := fun t ht himmediate => h t (hsub t ht) himmediate

theorem Calm.arm? {delay : Duration} {task : Task} {t : Timer} (h : q.Calm horizon)
    (harm : q.arm? delay task = some (t, r)) (hdelay : delay ≠ .zero) : r.Calm horizon := by
  have ha := arms_of_arm? harm
  intro u hu himmediate
  rcases (ha.pending u).1 hu with rfl | hu
  · rw [ha.immediate] at himmediate
    exact absurd (of_decide_eq_true himmediate) hdelay
  · exact h u hu himmediate

theorem Calm.cancelDeferred (h : q.Calm horizon) : q.cancelDeferred.Calm horizon :=
  h.of_subset fun _ ht => mem_of_mem_cancelDeferred ht

theorem Calm.defer? {event : Event} {delay : Duration} {t : Timer} (h : q.Calm horizon)
    (hdefer : q.defer? event delay = some (t, r)) (hdelay : delay ≠ .zero) : r.Calm horizon := by
  obtain ⟨armed, harm, rfl⟩ := defer?_eq_some hdefer
  have harmed : armed.Calm horizon := h.cancelDeferred.arm? harm hdelay
  exact harmed

theorem Calm.popDue? {t : Timer} (h : q.Calm horizon)
    (hpop : q.popDue? limit horizon = some (t, r)) : r.Calm horizon :=
  h.of_subset fun u hu => (mem_of_popDue? hpop u).2 (.inr hu)

/-- The first timer of a calm queue is taken exactly if it is due. -/
theorem Calm.held_iff (h : q.Calm horizon) {t : Timer} (ht : q.pending.head? = some t) :
    (limit < t.key.deadline ∨ (horizon ≤ t.key.id ∧ t.immediate = true)) ↔
      limit < t.key.deadline := by
  refine ⟨fun hheld => hheld.resolve_right ?_, .inl⟩
  rintro ⟨hid, himmediate⟩
  have := h t (List.mem_of_head? ht) himmediate
  omega

/-- A later horizon makes no difference to a calm queue. -/
theorem Calm.popDue?_eq (h : q.Calm horizon) {later : Nat} (hle : horizon ≤ later) :
    q.popDue? limit later = q.popDue? limit horizon := by
  have hlater : q.Calm later := fun t ht himmediate => Nat.lt_of_lt_of_le (h t ht himmediate) hle
  unfold TimerQueue.popDue?
  cases hhead : q.pending.head? with
  | none => rfl
  | some t => simp only [h.held_iff hhead, hlater.held_iff hhead]

/-- When no timer can be taken from a calm queue, all that waits is due later. -/
theorem Calm.lt_of_popDue?_eq_none (h : q.Calm horizon) (hpop : q.popDue? limit horizon = none) :
    ∀ t ∈ q.pending, limit < t.key.deadline := by
  cases hhead : q.pending.head? with
  | none => simp [List.head?_eq_none_iff.1 hhead]
  | some u =>
    have hlate : limit < u.key.deadline := by
      simpa [TimerQueue.popDue?, hhead, h.held_iff hhead] using hpop
    have hfirst : q.NotBefore u.key.deadline :=
      notBefore_of_nextDeadline (by rw [nextDeadline, hhead, Option.map_some])
    exact fun t ht => Nat.lt_of_lt_of_le hlate (hfirst t ht)

/-- What is due in a window is due in a wider one. -/
theorem popDue?_of_le {wide : Duration} (hle : limit ≤ wide) {p : Timer × TimerQueue}
    (hpop : q.popDue? limit horizon = some p) : q.popDue? wide horizon = some p := by
  unfold popDue? at hpop ⊢
  split at hpop
  · cases hpop
  · rename_i t _
    split at hpop
    · cases hpop
    · rename_i hheld
      have hwide : ¬ (wide < t.key.deadline ∨ horizon ≤ t.key.id ∧ t.immediate = true) := by
        simp only [not_or, Duration.lt_def, Duration.le_def, Nat.not_lt] at hheld hle ⊢
        exact ⟨Nat.le_trans hheld.1 hle, hheld.2⟩
      rw [if_neg hwide]
      exact hpop

/-- The clock may stop on its way. -/
theorem setNow_setNow (q : TimerQueue) {now later : Duration} (h : now ≤ later) :
    (q.setNow now).setNow later = q.setNow later := by
  have hclock : (q.now.later now).later later = q.now.later later := by
    rw [Duration.eq_iff, Duration.nanos_later, Duration.nanos_later, Duration.nanos_later]
    rw [Duration.le_def] at h
    omega
  simp only [setNow, hclock]

/-- Where the clock stands makes no difference as long as nothing is due before that. -/
theorem popDue?_setNow {now : Duration} (h : q.NotBefore now) :
    (q.setNow now).popDue? limit horizon = q.popDue? limit horizon := by
  have hsame : (q.setNow now).pending.head? = q.pending.head? := rfl
  unfold popDue?
  cases hhead : q.pending.head? with
  | none => simp only [hsame, hhead]
  | some t =>
    have hle : now ≤ t.key.deadline := h t (List.mem_of_head? hhead)
    simp only [hsame, hhead]
    split
    · rfl
    · let left : TimerQueue :=
        { q.rest with deferred := if q.deferred = some t.key then none else q.deferred }
      exact congrArg (fun r => some (t, r)) (left.setNow_setNow hle)

end TimerQueue

namespace Service

/-- An unhurried service arms no immediate timer. -/
theorem Move.calm {s r : Service κ} (h : Move s r) (hm : s.machine.Unhurried s.options)
    {horizon : Nat} (hs : s.timers.Calm horizon) : r.timers.Calm horizon := by
  cases h with
  | judged => exact hs
  | weighed => exact hs
  | skipped => exact hs
  | @called action run event haction hrun =>
    unfold perform
    dsimp only
    split
    · exact hs
    · unfold assign
      split <;> exact hs
    · rename_i later delay heffect
      have hdelay : delay ≠ .zero := by
        rintro rfl
        exact hm.sends action haction run hrun _ event later heffect
      unfold defer
      split
      · exact hs.cancelDeferred
      · rename_i hdefer
        exact TimerQueue.Calm.defer? (q := s.timers) hs hdefer hdelay
  | astray => exact hs
  | notified => exact hs
  | left => exact hs.of_subset fun t ht => (List.mem_filter.1 ht).1
  | cleared => exact hs.cancelDeferred
  | armed hd =>
    unfold arm
    split
    · exact hs
    · rename_i harm
      exact hs.arm? harm (hm.after _ _ (List.mem_of_getElem? hd))
  | arrived => exact hs
  | revisited => exact hs
  | changed => exact hs

theorem Moves.calm {s r : Service κ} (h : Moves s r) (hm : s.machine.Unhurried s.options)
    {horizon : Nat} (hs : s.timers.Calm horizon) : r.timers.Calm horizon := by
  induction h with
  | refl => exact hs
  | tail hmoves hmove ih =>
    have hf := Moves.follows hmoves
    exact hmove.calm (by rw [hf.machine, hf.options]; exact hm) ih

end Service
end TimedMachine
