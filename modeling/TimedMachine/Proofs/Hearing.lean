import TimedMachine.Proofs.Notification

/-!
What an operation can do to subscriptions. The only ones that end while the entries of a service are
relayed are those that its own listeners end when they are called (`exists_hears_relay`). So the
listeners of any other service stay, but for these.
-/
namespace TimedMachine

variable {κ : Type}

/-- A listener, with what it went by when it was called. -/
structure Hearing (κ : Type) where
  listener : Listener κ
  /-- The calls of listeners before. -/
  earlier : List (Heard κ)
  snapshot : Snapshot κ
  handles : Table Handle

namespace Hearing

/-- The subscriptions that the listener ended then. -/
def ends (h : Hearing κ) : List Handle := h.listener.ends h.earlier h.snapshot h.handles

def line (h : Hearing κ) : Line κ := .heard h.listener.label h.snapshot

end Hearing

namespace Switchboard

/-- Listeners of a channel were called, and the subscriptions that they ended are those that are
gone. -/
structure Hears (channel : Nat) (b : Switchboard κ) (hearings : List (Hearing κ))
    (c : Switchboard κ) : Prop where
  registered : ∀ h ∈ hearings, ∃ id, (id, h.listener) ∈ b.listeners channel
  listeners : ∀ other, c.listeners other =
    (b.listeners other).filter fun e => ∀ h ∈ hearings, (⟨other, e.1⟩ : Handle) ∉ h.ends

variable {channel : Nat} {b c d : Switchboard κ} {xs ys : List (Hearing κ)}

theorem Hears.refl (channel : Nat) (b : Switchboard κ) : Hears channel b [] b :=
  ⟨by simp, fun other => by simp⟩

theorem Hears.subset (h : Hears channel b xs c) (other : Nat) :
    c.listeners other ⊆ b.listeners other := by
  rw [h.listeners]
  exact List.filter_sublist.subset

theorem Hears.trans (h : Hears channel b xs c) (k : Hears channel c ys d) :
    Hears channel b (xs ++ ys) d where
  registered x hx := by
    rcases List.mem_append.1 hx with hx | hx
    · exact h.registered x hx
    · obtain ⟨id, hid⟩ := k.registered x hx
      exact ⟨id, h.subset channel hid⟩
  listeners other := by
    rw [k.listeners, h.listeners, List.filter_filter]
    refine List.filter_congr fun e _ => ?_
    simp only [List.forall_mem_append, Bool.decide_and, Bool.and_comm]

/-- The listeners of a channel whose turn comes, of which those are called that are still
subscribed. -/
theorem exists_hears_callEach (snapshot : Snapshot κ) {ls : List (Nat × Listener κ)}
    (hregistered : ls ⊆ b.listeners channel) :
    ∃ hearings : List (Hearing κ), (callEach channel snapshot ls c).2 = hearings.map Hearing.line ∧
      (∀ h ∈ hearings, ∃ id, (id, h.listener) ∈ b.listeners channel) ∧
      ∀ other, (callEach channel snapshot ls c).1.listeners other =
        (c.listeners other).filter fun e => ∀ h ∈ hearings, (⟨other, e.1⟩ : Handle) ∉ h.ends := by
  induction ls generalizing c with
  | nil => exact ⟨[], rfl, by simp, fun other => by simp [callEach]⟩
  | cons e rest ih =>
    obtain ⟨id, l⟩ := e
    have hrest : rest ⊆ b.listeners channel := fun e he => hregistered (List.mem_cons_of_mem _ he)
    rw [callEach]
    split
    · let called : Hearing κ := ⟨l, c.calls, snapshot, c.handles⟩
      obtain ⟨hearings, hlines, hknown, hleft⟩ := ih (c := c.call l snapshot) hrest
      refine ⟨called :: hearings, congrArg (called.line :: ·) hlines, ?_, fun other => ?_⟩
      · intro h hh
        rcases List.mem_cons.1 hh with rfl | hh
        · exact ⟨id, hregistered List.mem_cons_self⟩
        · exact hknown h hh
      · refine (hleft other).trans ?_
        have hends : c.endedBy l snapshot = called.ends := rfl
        rw [listeners_call, hends, List.filter_filter]
        refine List.filter_congr fun e _ => ?_
        simp only [List.forall_mem_cons, Bool.decide_and, Bool.and_comm]
    · exact ih hrest

theorem exists_hears_announce (channel : Nat) (snapshot : Snapshot κ) (b : Switchboard κ) :
    ∃ hearings : List (Hearing κ), (b.announce channel snapshot).2 = hearings.map Hearing.line ∧
      Hears channel b hearings (b.announce channel snapshot).1 := by
  obtain ⟨hearings, hlines, hknown, hleft⟩ :=
    exists_hears_callEach snapshot (c := b) (List.Subset.refl (b.listeners channel))
  exact ⟨hearings, hlines, hknown, hleft⟩

/-- What is heard while entries are relayed is the calls of listeners of the channel, and no other
subscriptions end than those that these end. -/
theorem exists_hears_relay (channel : Nat) (es : List (Entry κ)) (b : Switchboard κ) :
    ∃ hearings : List (Hearing κ), (relay channel es b).2.filter Line.isHeard = hearings.map Hearing.line ∧
      Hears channel b hearings (relay channel es b).1 := by
  have hnotes (ns : List (Note κ)) : (ns.map Line.note).filter Line.isHeard = [] := by
    simp [Line.isHeard]
  have hall (hearings : List (Hearing κ)) :
      (hearings.map Hearing.line).filter Line.isHeard = hearings.map Hearing.line := by
    refine List.filter_eq_self.2 fun line hline => ?_
    obtain ⟨h, _, rfl⟩ := List.mem_map.1 hline
    rfl
  induction es generalizing b with
  | nil => exact ⟨[], rfl, .refl channel b⟩
  | cons e rest ih =>
    rcases notified_or e with ⟨snapshot, rfl⟩ | hquiet
    · obtain ⟨first, hlines, hfirst⟩ := exists_hears_announce channel snapshot b
      obtain ⟨more, hmore, hrest⟩ := ih (b.announce channel snapshot).1
      refine ⟨first ++ more, ?_, by rw [relay_notified]; exact hfirst.trans hrest⟩
      rw [relay_notified, List.filter_append, hlines, hall, hmore, List.map_append]
    · obtain ⟨hearings, hlines, hhears⟩ := ih b
      refine ⟨hearings, ?_, by rw [relay_of_quiet hquiet]; exact hhears⟩
      rw [relay_of_quiet hquiet, List.filter_append, hnotes, List.nil_append, hlines]

end Switchboard
end TimedMachine
