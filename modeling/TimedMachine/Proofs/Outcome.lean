import TimedMachine.Service.Operation

/-!
How the parts of an operation end. `Ends` says what holds of the service when a part completes and
what holds of it when a sum of times does not exist; parts in sequence are joined by `Ends.andThen`.
`Adds` says that a journal has only grown, and by which kind of entries.
-/
namespace TimedMachine

variable {κ : Type}

namespace Outcome

theorem andThen_assoc (o : Outcome κ) (f g : Service κ → Outcome κ) :
    (o.andThen f).andThen g = o.andThen fun s => (f s).andThen g := by
  cases o <;> rfl

/-- Parts in sequence are joined by every relation that carries on from one to the next. -/
theorem service_andThen {R : Service κ → Service κ → Prop}
    (htrans : ∀ {s r u : Service κ}, R s r → R r u → R s u) {s : Service κ} {o : Outcome κ}
    {next : Service κ → Outcome κ} (h : R s o.service)
    (k : ∀ r, o = .completed r → R r (next r).service) : R s (o.andThen next).service := by
  cases o with
  | completed r => exact htrans h (k r rfl)
  | overflowed r => exact h

/-- What holds of the service at the end: one thing if the part completes, another if it is cut short. -/
def Ends (o : Outcome κ) (done cut : Service κ → Prop) : Prop :=
  match o with
  | .completed s => done s
  | .overflowed s => cut s

theorem Ends.imp {o : Outcome κ} {done cut done' cut' : Service κ → Prop} (h : o.Ends done cut)
    (hdone : ∀ s, done s → done' s) (hcut : ∀ s, cut s → cut' s) : o.Ends done' cut' := by
  cases o with
  | completed s => exact hdone s h
  | overflowed s => exact hcut s h

theorem Ends.and {o : Outcome κ} {done cut done' cut' : Service κ → Prop} (h : o.Ends done cut)
    (h' : o.Ends done' cut') :
    o.Ends (fun s => done s ∧ done' s) (fun s => cut s ∧ cut' s) := by
  cases o with
  | completed s => exact ⟨h, h'⟩
  | overflowed s => exact ⟨h, h'⟩

/-- What the first part ensures is what the second part starts from. -/
theorem Ends.andThen {o : Outcome κ} {next : Service κ → Outcome κ}
    {mid done cut : Service κ → Prop} (h : o.Ends mid cut)
    (k : ∀ s, mid s → (next s).Ends done cut) : (o.andThen next).Ends done cut := by
  cases o with
  | completed s => exact k s h
  | overflowed s => exact h

/-- What holds however the part ends. -/
theorem ends_of_service {o : Outcome κ} {p : Service κ → Prop} (h : p o.service) : o.Ends p p := by
  cases o with
  | completed s => exact h
  | overflowed s => exact h

theorem Ends.service {o : Outcome κ} {p : Service κ → Prop} (h : o.Ends p p) : p o.service := by
  cases o with
  | completed s => exact h
  | overflowed s => exact h

end Outcome

namespace Service

@[simp] theorem journal_create (machine : Machine κ) (options : Options κ) (channel : Nat) :
    (create machine options channel).journal = [] := by
  simp [create, journal, Journal.toList]

/-- The journal has grown, by entries of the given kind only. -/
def Adds (p : Entry κ → Prop) (s r : Service κ) : Prop :=
  ∃ new, r.journal = s.journal ++ new ∧ ∀ e ∈ new, p e

theorem Adds.refl (p : Entry κ → Prop) (s : Service κ) : Adds p s s := ⟨[], by simp⟩

/-- Nothing is added where only other parts of the service change. -/
theorem adds_of_journal_eq (p : Entry κ → Prop) {s r : Service κ} (h : r.journal = s.journal) :
    Adds p s r := ⟨[], by simpa using h⟩

theorem adds_log {p : Entry κ → Prop} (s : Service κ) {e : Entry κ} (h : p e) :
    Adds p s (s.log e) := ⟨[e], by simpa using h⟩

@[simp] theorem journal_withTimers (s : Service κ) (timers : TimerQueue) (e : Entry κ) :
    (s.withTimers timers e).journal = s.journal ++ [e] := by
  simp [withTimers, journal]

theorem adds_withTimers {p : Entry κ → Prop} (s : Service κ) (timers : TimerQueue) {e : Entry κ}
    (h : p e) : Adds p s (s.withTimers timers e) := ⟨[e], by simpa using h⟩

theorem Adds.trans {p : Entry κ → Prop} {s r u : Service κ} (h : Adds p s r) (k : Adds p r u) :
    Adds p s u := by
  obtain ⟨new, hr, hnew⟩ := h
  obtain ⟨more, hu, hmore⟩ := k
  exact ⟨new ++ more, by rw [hu, hr, List.append_assoc], List.forall_mem_append.2 ⟨hnew, hmore⟩⟩

/-- What is true of all entries stays so as long as it is true of those that are added. -/
theorem Adds.forall_mem {p : Entry κ → Prop} {s r : Service κ} (h : Adds p s r)
    (hs : ∀ e ∈ s.journal, p e) : ∀ e ∈ r.journal, p e := by
  obtain ⟨new, hr, hnew⟩ := h
  rw [hr]
  exact List.forall_mem_append.2 ⟨hs, hnew⟩

theorem Adds.imp {p q : Entry κ → Prop} {s r : Service κ} (h : Adds p s r)
    (hpq : ∀ e, p e → q e) : Adds q s r := by
  obtain ⟨new, hr, hnew⟩ := h
  exact ⟨new, hr, fun e he => hpq e (hnew e he)⟩

theorem Adds.andThen {p : Entry κ → Prop} {s : Service κ} {o : Outcome κ}
    {next : Service κ → Outcome κ} (h : Adds p s o.service)
    (k : ∀ r : Service κ, Adds p r (next r).service) : Adds p s (o.andThen next).service :=
  Outcome.service_andThen (R := Adds p) Adds.trans h fun r _ => k r

/-- What is read off a journal stays the same as long as nothing is added that bears on it. -/
theorem Adds.filterMap_eq {β : Type} {f : Entry κ → Option β} {p : Entry κ → Prop}
    {s r : Service κ} (h : Adds p s r) (hp : ∀ e, p e → f e = none) :
    r.journal.filterMap f = s.journal.filterMap f := by
  obtain ⟨new, hr, hnew⟩ := h
  have hnone : new.filterMap f = [] := List.filterMap_eq_nil_iff.2 fun e he => hp e (hnew e he)
  rw [hr, List.filterMap_append, hnone, List.append_nil]

end Service
end TimedMachine
