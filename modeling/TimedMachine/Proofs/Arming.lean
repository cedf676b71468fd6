import TimedMachine.Proofs.Actions

/-!
The delayed transitions of a state, from when they are armed together to when they fire or are
cancelled. `armEach_completed` gives the timers of a list of transitions in closed form. `Serves` is
what is left true of them while the state is not left, even after some have fired in vain.
-/
namespace TimedMachine

variable {κ : Type}

/-- The timer of a delayed transition, armed at a clock reading together with those before it in its
list, of which the first got the number `first`. -/
structure Delayed.HasTimer (d : Delayed κ) (state : String) (index : Nat) (since : Duration)
    (first : Nat) (t : Timer) : Prop where
  task : t.task = .delayed state index
  deadline : since.add? d.delay = some t.key.deadline
  id : t.key.id = first + index
  immediate : t.immediate = decide (d.delay = .zero)

theorem Delayed.HasTimer.eq {d : Delayed κ} {state : String} {index : Nat} {since : Duration}
    {first : Nat} {t u : Timer} (ht : d.HasTimer state index since first t)
    (hu : d.HasTimer state index since first u) : t = u := by
  obtain ⟨⟨tdeadline, tid⟩, ttask, timmediate⟩ := t
  obtain ⟨⟨udeadline, uid⟩, utask, uimmediate⟩ := u
  have hdeadline : tdeadline = udeadline := Option.some.inj (ht.deadline.symm.trans hu.deadline)
  have hid : tid = uid := ht.id.trans hu.id.symm
  have htask : ttask = utask := ht.task.trans hu.task.symm
  have himmediate : timmediate = uimmediate := ht.immediate.trans hu.immediate.symm
  rw [hdeadline, hid, htask, himmediate]

namespace Service

/-- What arming delayed transitions leaves alone. -/
structure Arming (s r : Service κ) : Prop extends s.Follows r where
  current : r.current = s.current
  history : r.history = s.history
  entries : Adds (fun e => e.isWork = true) s r
  slot : s.timers.Slot → r.timers.Slot
  waiting : ∀ t ∈ s.timers.pending, t ∈ r.timers.pending

theorem Arming.refl (s : Service κ) : s.Arming s :=
  ⟨.refl s, rfl, rfl, .refl _ s, id, fun _ ht => ht⟩

theorem Arming.trans {s r u : Service κ} (h : s.Arming r) (k : r.Arming u) : s.Arming u where
  toFollows := h.toFollows.trans k.toFollows
  current := k.current.trans h.current
  history := k.history.trans h.history
  entries := h.entries.trans k.entries
  slot hs := k.slot (h.slot hs)
  waiting t ht := k.waiting t (h.waiting t ht)

theorem arming_arm (delay : Duration) (state : String) (index : Nat) (s : Service κ) :
    s.Arming (s.arm delay (.delayed state index)).service := by
  have hf := s.follows_arm delay (.delayed state index)
  unfold arm at hf ⊢
  split
  · exact .refl s
  · rename_i t timers h
    simp only [h] at hf
    have ha := TimerQueue.arms_of_arm? h
    exact ⟨hf, rfl, rfl, adds_log s rfl, fun hs => hs.arms ha rfl,
      fun u hu => (ha.pending u).2 (.inr hu)⟩

theorem arming_armEach (state : String) (index : Nat) (ts : List (Delayed κ)) (s : Service κ) :
    s.Arming (armEach state index ts s).service := by
  induction ts generalizing index s with
  | nil => exact .refl s
  | cons d rest ih =>
    have hd := s.arming_arm d.delay state index
    rw [armEach]
    cases h : s.arm d.delay (.delayed state index) with
    | completed r =>
      rw [h] at hd
      exact hd.trans (ih (index + 1) r)
    | overflowed r =>
      rw [h] at hd
      exact hd

/-- The first transition of a list gets its timer before the others get theirs. -/
theorem armEach_cons {state : String} {index : Nat} {d : Delayed κ} {rest : List (Delayed κ)}
    {s r : Service κ} (h : armEach state index (d :: rest) s = .completed r) :
    ∃ t timers, s.timers.Arms d.delay (.delayed state index) t timers ∧
      armEach state (index + 1) rest (s.withTimers timers (.armed t)) = .completed r := by
  rw [armEach, arm] at h
  cases harm : s.timers.arm? d.delay (.delayed state index) with
  | none => simp [harm] at h
  | some p =>
    obtain ⟨t, timers⟩ := p
    simp only [harm, Outcome.completed_andThen] at h
    exact ⟨t, timers, TimerQueue.arms_of_arm? harm, h⟩

/-- Arming a list of delayed transitions writes that each was armed, in order, and adds their timers
to those that wait. -/
theorem armEach_writes {state : String} {index first : Nat} {ds : List (Delayed κ)}
    {s r : Service κ} (h : armEach state index ds s = .completed r)
    (hfirst : s.timers.nextId = first + index) :
    ∃ ts : List Timer, r.journal = s.journal ++ ts.map .armed ∧ ts.length = ds.length ∧
      (∀ (i : Nat) (d : Delayed κ), ds[i]? = some d →
        ∃ t, ts[i]? = some t ∧ d.HasTimer state (index + i) s.now first t) ∧
      ∀ t, t ∈ r.timers.pending ↔ t ∈ s.timers.pending ∨ t ∈ ts := by
  induction ds generalizing index s with
  | nil =>
    cases h
    exact ⟨[], by simp⟩
  | cons d rest ih =>
    obtain ⟨u, timers, ha, h⟩ := armEach_cons h
    have hu : d.HasTimer state index s.now first u :=
      ⟨ha.task, ha.deadline, by rw [ha.id, hfirst], ha.immediate⟩
    have hnow : (s.withTimers timers (.armed u)).now = s.now := ha.now
    have hnext : timers.nextId = first + (index + 1) := by
      rw [ha.nextId, hfirst, Nat.add_assoc]
    obtain ⟨ts, hjournal, hlength, heach, hpending⟩ := ih h hnext
    rw [hnow] at heach
    refine ⟨u :: ts, by simp [hjournal], by simp [hlength], ?_, ?_⟩
    · intro i e he
      cases i with
      | zero =>
        rw [List.getElem?_cons_zero, Option.some.injEq] at he
        exact ⟨u, rfl, he ▸ hu⟩
      | succ i =>
        rw [show index + (i + 1) = index + 1 + i by omega]
        exact heach i e he
    · intro t
      rw [hpending t, List.mem_cons]
      show t ∈ timers.pending ∨ t ∈ ts ↔ _
      rw [ha.pending t, or_assoc, or_left_comm]

/-- Every transition of the list gets its timer, and no others are armed. -/
theorem armEach_completed {state : String} {index first : Nat} {ts : List (Delayed κ)}
    {s r : Service κ} (h : armEach state index ts s = .completed r)
    (hfirst : s.timers.nextId = first + index) :
    (∀ (i : Nat) (d : Delayed κ), ts[i]? = some d →
      ∃ t ∈ r.timers.pending, d.HasTimer state (index + i) s.now first t) ∧
    ∀ t ∈ r.timers.pending, t ∈ s.timers.pending ∨
      ∃ (i : Nat) (d : Delayed κ), ts[i]? = some d ∧ d.HasTimer state (index + i) s.now first t := by
  obtain ⟨armed, _, hlength, heach, hpending⟩ := armEach_writes h hfirst
  constructor
  · intro i d hd
    obtain ⟨t, ht, hhas⟩ := heach i d hd
    exact ⟨t, (hpending t).2 (.inr (List.mem_of_getElem? ht)), hhas⟩
  · intro t ht
    rcases (hpending t).1 ht with hold | hnew
    · exact .inl hold
    · obtain ⟨i, hi⟩ := List.mem_iff_getElem?.1 hnew
      obtain ⟨d, hd⟩ : ∃ d, ts[i]? = some d := by
        have hlt := (List.getElem?_eq_some_iff.1 hi).1
        exact ⟨ts[i], List.getElem?_eq_getElem (hlength ▸ hlt)⟩
      obtain ⟨u, hu, hhas⟩ := heach i d hd
      rw [hi, Option.some.injEq] at hu
      exact .inr ⟨i, d, hd, hu ▸ hhas⟩

end Service

/-- The delayed transitions that wait are those of a state, armed at one clock reading, and none is
missing that leads to another declared state. -/
structure TimerQueue.Serves (q : TimerQueue) (m : Machine κ) (state : String) (since : Duration) :
    Prop where
  since_le : since ≤ q.now
  due : ∀ t ∈ q.pending, ∀ name index, t.task = .delayed name index →
    name = state ∧ ∃ d, (m.afterOf state)[index]? = some d ∧
      since.add? d.delay = some t.key.deadline
  single : ∀ t ∈ q.pending, ∀ u ∈ q.pending, ∀ index, t.task = .delayed state index →
    u.task = .delayed state index → t = u
  ascending : ∀ t ∈ q.pending, ∀ u ∈ q.pending, ∀ i j, t.task = .delayed state i →
    u.task = .delayed state j → i < j → t.key.id < u.key.id
  kept : ∀ index d, (m.afterOf state)[index]? = some d → d.target ≠ state →
    m.declares d.target = true → ∃ t ∈ q.pending, t.task = .delayed state index

namespace TimerQueue

/-- Only the delayed transitions matter, and the clock, which may have moved on. -/
theorem Serves.of_delayed {q r : TimerQueue} {m : Machine κ} {state : String} {since : Duration}
    (h : q.Serves m state since) (hnow : q.now ≤ r.now) (hdelayed : r.delayed = q.delayed) :
    r.Serves m state since := by
  have hmem : ∀ t name index, t.task = .delayed name index →
      (t ∈ r.pending ↔ t ∈ q.pending) := by
    intro t name index htask
    have htrue : t.task.isDelayed = true := by rw [htask]; rfl
    have hr := mem_delayed (q := r) (t := t)
    rw [hdelayed, mem_delayed] at hr
    simpa [htrue] using hr.symm
  constructor
  · exact Nat.le_trans h.since_le hnow
  · intro t ht name index htask
    exact h.due t ((hmem t _ _ htask).1 ht) name index htask
  · intro t ht u hu index htask hutask
    exact h.single t ((hmem t _ _ htask).1 ht) u ((hmem u _ _ hutask).1 hu) index htask hutask
  · intro t ht u hu i j htask hutask
    exact h.ascending t ((hmem t _ _ htask).1 ht) u ((hmem u _ _ hutask).1 hu) i j htask hutask
  · intro index d hd hother hdecl
    obtain ⟨t, ht, htask⟩ := h.kept index d hd hother hdecl
    exact ⟨t, (hmem t _ _ htask).2 ht, htask⟩

/-- Taking a timer leaves the others as they were; what it was for may be missing afterwards. -/
theorem Serves.popDue? {q r : TimerQueue} {m : Machine κ} {state : String} {since limit : Duration}
    {horizon : Nat} {t : Timer} (h : q.Serves m state since)
    (hpop : q.popDue? limit horizon = some (t, r))
    (hvain : ∀ index d, t.task = .delayed state index → (m.afterOf state)[index]? = some d →
      d.target = state ∨ m.declares d.target = false) : r.Serves m state since := by
  have hmem := mem_of_popDue? hpop
  have hnow : q.now ≤ r.now := by
    rw [(popDue?_eq_some hpop).2.2.2.1, Duration.le_def, Duration.nanos_later]
    omega
  have hback : ∀ u ∈ r.pending, u ∈ q.pending := fun u hu => (hmem u).2 (.inr hu)
  constructor
  · exact Nat.le_trans h.since_le hnow
  · intro u hu
    exact h.due u (hback u hu)
  · intro u hu v hv
    exact h.single u (hback u hu) v (hback v hv)
  · intro u hu v hv
    exact h.ascending u (hback u hu) v (hback v hv)
  · intro index d hd hother hdecl
    obtain ⟨u, hu, htask⟩ := h.kept index d hd hother hdecl
    rcases (hmem u).1 hu with rfl | hu
    · rcases hvain index d htask hd with hsame | hnot
      · exact absurd hsame hother
      · rw [hnot] at hdecl
        cases hdecl
    · exact ⟨u, hu, htask⟩

/-- A queue serves a state from the moment at which all its delayed transitions have been armed and
no others wait. -/
theorem serves_of_hasTimer {q : TimerQueue} {m : Machine κ} {state : String} {since : Duration}
    {first : Nat} (hnow : since ≤ q.now)
    (hall : ∀ (i : Nat) (d : Delayed κ), (m.afterOf state)[i]? = some d →
      ∃ t ∈ q.pending, d.HasTimer state i since first t)
    (honly : ∀ t ∈ q.pending, t.task.isDelayed = true →
      ∃ (i : Nat) (d : Delayed κ), (m.afterOf state)[i]? = some d ∧
        d.HasTimer state i since first t) :
    q.Serves m state since := by
  have hof : ∀ t ∈ q.pending, ∀ name index, t.task = .delayed name index →
      name = state ∧ ∃ d, (m.afterOf state)[index]? = some d ∧
        d.HasTimer state index since first t := by
    intro t ht name index htask
    obtain ⟨i, d, hd, hhas⟩ := honly t ht (by rw [htask]; rfl)
    have heq := htask.symm.trans hhas.task
    obtain ⟨rfl, rfl⟩ := Task.delayed.inj heq
    exact ⟨rfl, d, hd, hhas⟩
  constructor
  · exact hnow
  · intro t ht name index htask
    obtain ⟨hname, d, hd, hhas⟩ := hof t ht name index htask
    exact ⟨hname, d, hd, hhas.deadline⟩
  · intro t ht u hu index htask hutask
    obtain ⟨_, d, hd, hhas⟩ := hof t ht state index htask
    obtain ⟨_, e, he, hhas'⟩ := hof u hu state index hutask
    rw [hd, Option.some.injEq] at he
    exact hhas.eq (he ▸ hhas')
  · intro t ht u hu i j htask hutask hij
    obtain ⟨_, d, _, hhas⟩ := hof t ht state i htask
    obtain ⟨_, e, _, hhas'⟩ := hof u hu state j hutask
    rw [hhas.id, hhas'.id]
    omega
  · intro index d hd _ _
    obtain ⟨t, ht, hhas⟩ := hall index d hd
    exact ⟨t, ht, hhas.task⟩

end TimerQueue
end TimedMachine
