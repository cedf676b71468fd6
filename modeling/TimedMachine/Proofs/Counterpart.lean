import Mathlib.Data.List.Forall2
import TimedMachine.Options
import TimedMachine.Service.Eventless

/-!
Machines that differ in how they are written down but not in what they do. Given which actions
correspond, two machines with their options are counterparts if corresponding actions stand for the
same functions, and the parts of every state correspond in order, with the same targets, delays,
guards and conditions. Every machine is its own counterpart (`counterpart_self`).
-/
namespace TimedMachine

variable {κ : Type}

/-- Which actions correspond. -/
abbrev Matching (κ : Type) := Action κ → Action κ → Prop

structure Snapshot.Alike (m : Matching κ) (s s' : Snapshot κ) : Prop where
  value : s'.value = s.value
  context : s'.context = s.context
  actions : List.Forall₂ m s.actions s'.actions
  changed : s'.changed = s.changed

structure Delayed.Alike (m : Matching κ) (d d' : Delayed κ) : Prop where
  delay : d'.delay = d.delay
  target : d'.target = d.target
  actions : List.Forall₂ m d.actions d'.actions

/-- The condition is the same and cannot tell corresponding snapshots apart. -/
structure Eventless.Alike (m : Matching κ) (t t' : Eventless κ) : Prop where
  target : t'.target = t.target
  actions : List.Forall₂ m t.actions t'.actions
  condition : t'.condition = t.condition
  blind : ∀ condition, t.condition = some condition →
    ∀ s s' : Snapshot κ, s.Alike m s' → condition s' = condition s

/-- The guard is the same and cannot tell corresponding snapshots apart. -/
structure Candidate.Alike (m : Matching κ) (c c' : Candidate κ) : Prop where
  next : c.next.Alike m c'.next
  guard : c'.guard = c.guard
  blind : ∀ guard, c.guard = some guard →
    ∀ s s' : Snapshot κ, s.Alike m s' → ∀ event, guard s' event = guard s event

/-- The machines with their options do the same, except that actions are exchanged for corresponding
ones. -/
structure Counterpart (m : Matching κ) (a : Machine κ) (o : Options κ) (a' : Machine κ)
    (o' : Options κ) : Prop where
  resolve : ∀ x x', m x x' → o'.resolve x' = o.resolve x
  unresolved : ∀ x x', m x x' → o.resolve x = none → x'.name? = x.name?
  declares : ∀ state, a'.declares state = a.declares state
  entry : ∀ state, List.Forall₂ m (a.entryOf state) (a'.entryOf state)
  exit : ∀ state, List.Forall₂ m (a.exitOf state) (a'.exitOf state)
  after : ∀ state, List.Forall₂ (Delayed.Alike m) (a.afterOf state) (a'.afterOf state)
  always : ∀ state, List.Forall₂ (Eventless.Alike m) (a.alwaysOf state) (a'.alwaysOf state)
  candidate : ∀ s s' : Snapshot κ, s.Alike m s' → ∀ event,
    Option.Rel (Candidate.Alike m) (a.candidate? s event) (a'.candidate? s' event)

theorem Snapshot.alike_self (s : Snapshot κ) : s.Alike Eq s :=
  ⟨rfl, rfl, List.forall₂_same.2 fun _ _ => rfl, rfl⟩

/-- When only equal actions correspond, only equal snapshots do. -/
theorem Snapshot.Alike.eq {s s' : Snapshot κ} (h : s.Alike Eq s') : s' = s := by
  have hactions : s.actions = s'.actions := by
    have hlists := h.actions
    rwa [List.forall₂_eq_eq_eq] at hlists
  calc s' = ⟨s'.value, s'.context, s'.actions, s'.changed⟩ := rfl
    _ = s := by rw [h.value, h.context, ← hactions, h.changed]

theorem Eventless.alike_self (t : Eventless κ) : t.Alike Eq t :=
  ⟨rfl, List.forall₂_same.2 fun _ _ => rfl, rfl, fun _ _ _ _ h => by rw [h.eq]⟩

theorem Delayed.alike_self (d : Delayed κ) : d.Alike Eq d :=
  ⟨rfl, rfl, List.forall₂_same.2 fun _ _ => rfl⟩

theorem Candidate.alike_self (c : Candidate κ) : c.Alike Eq c :=
  ⟨c.next.alike_self, rfl, fun _ _ _ _ h _ => by rw [h.eq]⟩

/-- A machine is its own counterpart, however long a history the options ask for. -/
theorem counterpart_self (a : Machine κ) {o o' : Options κ} (h : o'.actions = o.actions) :
    Counterpart Eq a o a o' where
  resolve := by
    rintro x _ rfl
    cases x with
    | direct run => rfl
    | named name => rw [Options.resolve, Options.resolve, h]
  unresolved := by rintro x _ rfl _; rfl
  declares _ := rfl
  entry _ := List.forall₂_same.2 fun _ _ => rfl
  exit _ := List.forall₂_same.2 fun _ _ => rfl
  after _ := List.forall₂_same.2 fun d _ => d.alike_self
  always _ := List.forall₂_same.2 fun t _ => t.alike_self
  candidate s s' h event := by
    rw [h.eq]
    cases a.candidate? s event with
    | none => exact .none
    | some c => exact .some c.alike_self

variable {m : Matching κ} {s s' : Snapshot κ}

theorem Candidate.Alike.verdict_eq {c c' : Candidate κ} (h : c.Alike m c') (hs : s.Alike m s')
    (event : Event) : c'.verdict s' event = c.verdict s event := by
  unfold Candidate.verdict
  rw [h.guard]
  cases hguard : c.guard with
  | none => rfl
  | some guard => exact h.blind guard hguard s s' hs event

theorem Eventless.Alike.enabled_eq {t t' : Eventless κ} (h : t.Alike m t') (hs : s.Alike m s') :
    t'.enabled s' = t.enabled s := by
  unfold Eventless.enabled
  rw [h.condition]
  cases hcondition : t.condition with
  | none => rfl
  | some condition =>
    show (condition s').holds = (condition s).holds
    rw [h.blind condition hcondition s s' hs]

/-- The first enabled transitions correspond. -/
theorem find?_alike {ts ts' : List (Eventless κ)} (h : List.Forall₂ (Eventless.Alike m) ts ts')
    (hs : s.Alike m s') :
    Option.Rel (Eventless.Alike m) (ts.find? (·.enabled s)) (ts'.find? (·.enabled s')) := by
  induction h with
  | nil => exact .none
  | @cons t t' _ _ ht _ ih =>
    rw [List.find?_cons, List.find?_cons, ht.enabled_eq hs]
    cases t.enabled s with
    | true => exact .some ht
    | false => exact ih

/-- The same conditions are asked. -/
theorem consulted_alike {ts ts' : List (Eventless κ)}
    (h : List.Forall₂ (Eventless.Alike m) ts ts') (hs : s.Alike m s') :
    Service.consulted s' ts' = Service.consulted s ts := by
  induction h with
  | nil => rfl
  | @cons t t' _ _ ht _ ih =>
    rw [Service.consulted, Service.consulted, ht.condition]
    cases hcondition : t.condition with
    | none => rfl
    | some condition =>
      have hsame : condition s' = condition s := ht.blind condition hcondition s s' hs
      simp only [hsame, ih]

/-- A list whose members are given by those of another is given by mapping. -/
theorem eq_map_of_forall₂ {α β : Type} {p : α → β → Prop} {g : α → β} (hp : ∀ a b, p a b → b = g a)
    {l : List α} {m : List β} (h : List.Forall₂ p l m) : m = l.map g := by
  induction h with
  | nil => rfl
  | cons hab _ ih => rw [List.map_cons, ih, hp _ _ hab]

/-- Corresponding lists have corresponding members at every place. -/
theorem getElem?_alike {α β : Type} {p : α → β → Prop} {l : List α} {l' : List β}
    (h : List.Forall₂ p l l') (i : Nat) : Option.Rel p l[i]? l'[i]? := by
  induction h generalizing i with
  | nil => exact .none
  | cons hab _ ih =>
    cases i with
    | zero => exact .some hab
    | succ i => exact ih i

end TimedMachine
