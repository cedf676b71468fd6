import TimedMachine.Hub.Deed
import TimedMachine.Proofs.Act
import TimedMachine.Proofs.Notification

/-!
How services are wired to the switchboard of their hub. Each one has an open channel of its own, so
whoever subscribes to a service that is there is registered, and dropping one service silences no
other (`Wires`). Every deed keeps this (`Hub.Wired.perform`).
-/
namespace TimedMachine

variable {κ : Type}

/-- The services that are found on the shelves have open channels of their own. -/
structure Wires (place : Shelf → String → Option (Service κ)) (b : Switchboard κ) : Prop where
  isOpen : ∀ shelf key s, place shelf key = some s → (b.channel? s.channel).isSome = true
  distinct : ∀ shelf key s other name u, place shelf key = some s → place other name = some u →
    s.channel = u.channel → shelf = other ∧ key = name

namespace Wires

variable {place moved : Shelf → String → Option (Service κ)} {b c : Switchboard κ}

theorem sameChannels (h : Wires place b) (hsame : b.SameChannels c) : Wires place c where
  isOpen shelf key s hs := (hsame.isSome s.channel).trans (h.isOpen shelf key s hs)
  distinct := h.distinct

/-- Services may be moved, taken away and changed, as long as no two come from one place and each keeps
its channel. -/
theorem relocate (h : Wires place b) (origin : Shelf → String → Shelf × String)
    (horigin : ∀ shelf key s, moved shelf key = some s →
      ∃ u, place (origin shelf key).1 (origin shelf key).2 = some u ∧ u.channel = s.channel)
    (hapart : ∀ shelf key s other name u, moved shelf key = some s → moved other name = some u →
      origin shelf key = origin other name → shelf = other ∧ key = name) : Wires moved b where
  isOpen shelf key s hs := by
    obtain ⟨u, hu, hchannel⟩ := horigin shelf key s hs
    rw [← hchannel]
    exact h.isOpen _ _ u hu
  distinct shelf key s other name u hs hu hsame := by
    obtain ⟨s', hs', hchannel⟩ := horigin shelf key s hs
    obtain ⟨u', hu', hchannel'⟩ := horigin other name u hu
    have hplace := h.distinct _ _ s' _ _ u' hs' hu' (by rw [hchannel, hchannel', hsame])
    exact hapart shelf key s other name u hs hu (Prod.ext hplace.1 hplace.2)

/-- Closing the channel of a service that is taken away leaves those of all others open. -/
theorem close (h : Wires place b) {gone : Shelf} {last : String} {s : Service κ}
    (hs : place gone last = some s) (hmoved : ∀ shelf key u, moved shelf key = some u →
      place shelf key = some u ∧ ¬ (shelf = gone ∧ key = last)) :
    Wires moved (b.close s.channel) where
  isOpen shelf key u hu := by
    obtain ⟨hplace, hother⟩ := hmoved shelf key u hu
    rw [Switchboard.channel?_close, if_neg]
    · exact h.isOpen shelf key u hplace
    · exact fun hchannel => hother (h.distinct _ _ _ _ _ _ hplace hs hchannel)
  distinct shelf key u other name v hu hv hchannel :=
    h.distinct _ _ _ _ _ _ (hmoved shelf key u hu).1 (hmoved other name v hv).1 hchannel

/-- A new service gets a channel that no other has. -/
theorem openChannel (h : Wires place b) (shelf : Shelf) (key : String) {s : Service κ}
    (hs : s.channel = b.channels.length) (hmoved : ∀ other name u, moved other name = some u →
      (other = shelf ∧ name = key ∧ u = s) ∨
        (¬ (other = shelf ∧ name = key) ∧ place other name = some u)) :
    Wires moved b.openChannel.2 where
  isOpen other name u hu := by
    rw [Switchboard.channel?_openChannel]
    split
    · rfl
    · rename_i hother
      rcases hmoved other name u hu with ⟨_, _, rfl⟩ | ⟨_, hplace⟩
      · exact absurd hs hother
      · exact h.isOpen other name u hplace
  distinct other name u other' name' v hu hv hchannel := by
    have hnew {shelf : Shelf} {key : String} {u : Service κ} (hu : place shelf key = some u) :
        u.channel ≠ s.channel := by
      obtain ⟨d, hd⟩ := Option.isSome_iff_exists.1 (h.isOpen shelf key u hu)
      rw [hs]
      exact Nat.ne_of_lt (Switchboard.lt_of_channel?_eq_some hd)
    rcases hmoved other name u hu with ⟨rfl, rfl, rfl⟩ | ⟨_, hu⟩ <;>
      rcases hmoved other' name' v hv with ⟨rfl, rfl, rfl⟩ | ⟨_, hv⟩
    · exact ⟨rfl, rfl⟩
    · exact absurd hchannel.symm (hnew hv)
    · exact absurd hchannel (hnew hu)
    · exact h.distinct _ _ _ _ _ _ hu hv hchannel

end Wires

namespace Hub

/-- All services of a hub have open channels of their own. -/
abbrev Wired (h : Hub κ) : Prop := Wires h.service? h.board

theorem service?_setRegistry (h : Hub κ) (r : Registry κ) (shelf other : Shelf) (name : String) :
    (h.setRegistry r shelf).service? other name =
      if other = shelf then r.get? name else h.service? other name := by
  rw [service?, registry_setRegistry]
  split <;> rfl

theorem active_silence (h : Hub κ) (shelf : Shelf) (key : String) :
    (h.silence shelf key).active = h.active := by
  unfold silence
  split <;> rfl

theorem retired_silence (h : Hub κ) (shelf : Shelf) (key : String) :
    (h.silence shelf key).retired = h.retired := by
  unfold silence
  split <;> rfl

theorem service?_silence (h : Hub κ) (shelf : Shelf) (key : String) :
    (h.silence shelf key).service? = h.service? := by
  unfold silence
  split <;> rfl

theorem service?_drop (h : Hub κ) (shelf other : Shelf) (key name : String) :
    (h.drop shelf key).service? other name =
      if other = shelf ∧ name = key then none else h.service? other name := by
  rw [drop, service?_setRegistry, service?_silence, Registry.get?_remove]
  by_cases hshelf : other = shelf
  · by_cases hname : name = key <;> simp [hshelf, hname, service?]
  · simp [hshelf]

theorem service?_create (h : Hub κ) (key : String) (options : Options κ) (other : Shelf)
    (name : String) :
    (h.create key options).2.service? other name =
      if other = .active ∧ name = key then some (h.create key options).1
      else h.service? other name := by
  cases other with
  | active =>
    show ((h.silence .active key).active.put key _).get? name = _
    rw [Registry.get?_put, active_silence]
    by_cases hname : name = key
    · rw [if_pos hname, if_pos ⟨rfl, hname⟩]
      rfl
    · rw [if_neg hname, if_neg fun hboth => hname hboth.2]
      rfl
  | retired =>
    show (h.silence .active key).retired.get? name = _
    rw [retired_silence]
    simp [service?, registry]

theorem service?_request_of_none {h : Hub κ} {key : String} (hnone : h.active.get? key = none)
    (other : Shelf) (name : String) :
    (h.request key).2.service? other name =
      if other = .active ∧ name = key then some (.create h.machine h.options h.board.channels.length)
      else h.service? other name := by
  have hactive : (h.request key).2.active =
      h.active.put key (.create h.machine h.options h.board.channels.length) := by
    simp only [request, Registry.request, hnone]
    rfl
  have hretired : (h.request key).2.retired = h.retired := rfl
  cases other with
  | active =>
    rw [service?, registry, hactive, Registry.get?_put]
    by_cases hname : name = key <;> simp [hname, service?, registry]
  | retired =>
    rw [service?, registry, hretired]
    simp [service?, registry]

theorem service?_retire_of_some {h : Hub κ} {key : String} {s : Service κ}
    (hs : h.active.get? key = some s) (other : Shelf) (name : String) :
    (h.retire key).2.service? other name =
      if other = .active ∧ name = key then none
      else if other = .retired ∧ name = key then some s.stop
      else h.service? other name := by
  have hsplit : (h.retire key).2 = { h.silence .retired key with
      active := (h.active.remove key).2
      retired := (h.silence .retired key).retired.put key s.stop } := by
    simp [retire, Registry.remove, hs]
  rw [hsplit]
  cases other with
  | active =>
    show (h.active.remove key).2.get? name = _
    rw [Registry.get?_remove]
    by_cases hname : name = key <;> simp [hname, service?, registry]
  | retired =>
    show ((h.silence .retired key).retired.put key s.stop).get? name = _
    rw [Registry.get?_put, retired_silence]
    by_cases hname : name = key <;> simp [hname, service?, registry]

theorem board_silence (h : Hub κ) (shelf : Shelf) (key : String) :
    (h.silence shelf key).board =
      match h.service? shelf key with
      | none => h.board
      | some s => h.board.close s.channel := by
  unfold silence
  split <;> simp [*]

theorem board_setRegistry (h : Hub κ) (r : Registry κ) (shelf : Shelf) :
    (h.setRegistry r shelf).board = h.board := by
  cases shelf <;> rfl

theorem board_drop (h : Hub κ) (shelf : Shelf) (key : String) :
    (h.drop shelf key).board = (h.silence shelf key).board := board_setRegistry _ _ _

theorem board_create (h : Hub κ) (key : String) (options : Options κ) :
    (h.create key options).2.board = (h.silence .active key).board.openChannel.2 := rfl

theorem request_of_some {h : Hub κ} {key : String} {s : Service κ}
    (hs : h.active.get? key = some s) : (h.request key).2 = h := by
  simp only [request, Registry.request, hs]

theorem board_request_of_none {h : Hub κ} {key : String} (hnone : h.active.get? key = none) :
    (h.request key).2.board = h.board.openChannel.2 := by
  simp only [request, Registry.request, hnone]
  rfl

theorem retire_of_none {h : Hub κ} {key : String} (hnone : h.active.get? key = none) :
    (h.retire key).2 = { h with active := (h.active.remove key).2 } := by
  simp [retire, Registry.remove, hnone]

theorem board_retire_of_some {h : Hub κ} {key : String} {s : Service κ}
    (hs : h.active.get? key = some s) :
    (h.retire key).2.board = (h.silence .retired key).board := by
  simp [retire, Registry.remove, hs]

theorem conduct_eq_some [BEq κ] {h r : Hub κ} {shelf : Shelf} {key : String}
    {op : Service.Operation} {o : Outcome κ} {lines : List (Line κ)}
    (hr : h.conduct shelf key op = some (o, lines, r)) :
    ∃ s, h.service? shelf key = some s ∧ o = s.apply op ∧
      (r.board, lines) = Switchboard.relay s.channel (o.service.since s) h.board := by
  obtain ⟨s, hs, he⟩ := Option.map_eq_some_iff.1 hr
  simp only [Prod.mk.injEq] at he
  obtain ⟨rfl, rfl, rfl⟩ := he
  exact ⟨s, hs, rfl, Prod.ext (board_setRegistry _ _ _) rfl⟩

/-- Where a service was found before the one under a key was retired. -/
def beforeRetiring (key : String) (shelf : Shelf) (name : String) : Shelf × String :=
  if shelf = .retired ∧ name = key then (.active, key) else (shelf, name)

/-- Only the place that the retired service has left could be told for another. -/
theorem beforeRetiring_inj {key : String} {shelf other : Shelf} {name name' : String}
    (h : ¬ (shelf = .active ∧ name = key)) (h' : ¬ (other = .active ∧ name' = key))
    (hsame : beforeRetiring key shelf name = beforeRetiring key other name') :
    shelf = other ∧ name = name' := by
  unfold beforeRetiring at hsame
  split at hsame <;> split at hsame
  · rename_i hplace hplace'
    exact ⟨hplace.1.trans hplace'.1.symm, hplace.2.trans hplace'.2.symm⟩
  · obtain ⟨rfl, rfl⟩ := Prod.mk.inj hsame
    exact absurd ⟨rfl, rfl⟩ h'
  · obtain ⟨rfl, rfl⟩ := Prod.mk.inj hsame
    exact absurd ⟨rfl, rfl⟩ h
  · exact Prod.mk.inj hsame

namespace Wired

variable {h : Hub κ}

theorem drop (hw : h.Wired) (shelf : Shelf) (key : String) : (h.drop shelf key).Wired := by
  have hleft (other : Shelf) (name : String) (u : Service κ)
      (hu : (h.drop shelf key).service? other name = some u) :
      h.service? other name = some u ∧ ¬ (other = shelf ∧ name = key) := by
    rw [service?_drop] at hu
    split at hu
    · cases hu
    · exact ⟨hu, ‹_›⟩
  rw [Wired, board_drop, board_silence]
  cases hs : h.service? shelf key with
  | none =>
    refine hw.relocate Prod.mk (fun other name u hu => ⟨u, (hleft other name u hu).1, rfl⟩) ?_
    exact fun _ _ _ _ _ _ _ _ hsame => Prod.mk.inj hsame
  | some s => exact hw.close hs hleft

theorem create (hw : h.Wired) (key : String) (options : Options κ) :
    (h.create key options).2.Wired := by
  have hchannel : (h.create key options).1.channel = (h.silence .active key).board.channels.length :=
    rfl
  rw [← board_drop] at hchannel
  rw [Wired, board_create, ← board_drop]
  refine (hw.drop .active key).openChannel .active key hchannel fun other name u hu => ?_
  rw [service?_create] at hu
  split at hu
  · rename_i hplace
    exact .inl ⟨hplace.1, hplace.2, (Option.some.inj hu).symm⟩
  · rename_i hplace
    rw [service?_drop, if_neg hplace]
    exact .inr ⟨hplace, hu⟩

theorem request (hw : h.Wired) (key : String) : (h.request key).2.Wired := by
  cases hs : h.active.get? key with
  | some s =>
    rw [request_of_some hs]
    exact hw
  | none =>
    rw [Wired, board_request_of_none hs]
    refine hw.openChannel .active key (s := .create h.machine h.options h.board.channels.length) rfl
      fun other name u hu => ?_
    rw [service?_request_of_none hs] at hu
    split at hu
    · rename_i hplace
      exact .inl ⟨hplace.1, hplace.2, (Option.some.inj hu).symm⟩
    · exact .inr ⟨‹_›, hu⟩

theorem retire (hw : h.Wired) (key : String) : (h.retire key).2.Wired := by
  cases hs : h.active.get? key with
  | none =>
    rw [retire_of_none hs]
    refine hw.relocate Prod.mk (fun other name u hu => ⟨u, ?_, rfl⟩) ?_
    · cases other with
      | active =>
        have hfound : (h.active.remove key).2.get? name = some u := hu
        rw [Registry.get?_remove] at hfound
        split at hfound
        · cases hfound
        · exact hfound
      | retired => exact hu
    · exact fun _ _ _ _ _ _ _ _ hsame => Prod.mk.inj hsame
  | some s =>
    have hstop : s.stop.channel = s.channel := by
      unfold Service.stop
      split <;> rfl
    rw [Wired, board_retire_of_some hs, ← board_drop]
    refine (hw.drop .retired key).relocate (beforeRetiring key) ?_ ?_
    · intro other name u hu
      rw [service?_retire_of_some hs] at hu
      split at hu
      · cases hu
      · split at hu
        · obtain rfl := Option.some.inj hu
          refine ⟨s, ?_, hstop.symm⟩
          rename_i hplace
          rw [beforeRetiring, if_pos hplace, service?_drop, if_neg (by simp)]
          exact hs
        · rename_i hplace
          refine ⟨u, ?_, rfl⟩
          rw [beforeRetiring, if_neg hplace, service?_drop, if_neg hplace]
          exact hu
    · intro shelf name u other name' v hu hv hsame
      rw [service?_retire_of_some hs] at hu hv
      split at hu
      · cases hu
      split at hv
      · cases hv
      exact beforeRetiring_inj ‹_› ‹_› hsame

theorem subscribe (hw : h.Wired) (shelf : Shelf) (key name : String) (l : Listener κ) :
    (h.subscribe shelf key name l).Wired := by
  unfold Hub.subscribe
  split
  · exact hw
  · exact hw.sameChannels (h.board.sameChannels_subscribe _ name l)

theorem unsubscribe (hw : h.Wired) (handle : Handle) : (h.unsubscribe handle).Wired :=
  hw.sameChannels (h.board.sameChannels_unsubscribe handle)

variable [BEq κ]

theorem conduct (hw : h.Wired) {shelf : Shelf} {key : String} {op : Service.Operation}
    {o : Outcome κ} {lines : List (Line κ)} {r : Hub κ}
    (hr : h.conduct shelf key op = some (o, lines, r)) : r.Wired := by
  obtain ⟨s, hs, rfl, htold⟩ := conduct_eq_some hr
  have hsame : h.board.SameChannels r.board := by
    have hboard : r.board = _ := congrArg Prod.fst htold
    rw [hboard]
    exact h.board.sameChannels_relay _ _
  refine (hw.sameChannels hsame).relocate Prod.mk (fun other name u hu => ?_)
    fun _ _ _ _ _ _ _ _ he => Prod.mk.inj he
  rw [service?_conduct hr] at hu
  split at hu
  · rename_i hplace
    obtain rfl := Option.some.inj hu
    have hkept : (s.apply op).service.channel = s.channel :=
      (Service.Steps.continues (s.steps_apply op)).channel
    exact ⟨s, hplace.1 ▸ hplace.2 ▸ hs, hkept.symm⟩
  · exact ⟨u, hu, rfl⟩

/-- Every deed keeps the services wired. -/
theorem perform (hw : h.Wired) (d : Deed κ) : (h.perform d).hub.Wired := by
  cases d with
  | create key options => exact hw.create key options
  | request key => exact hw.request key
  | retire key => exact hw.retire key
  | drop shelf key => exact hw.drop shelf key
  | subscribe shelf key name l => exact hw.subscribe shelf key name l
  | unsubscribe handle => exact hw.unsubscribe handle
  | operate shelf key op =>
    rw [Hub.perform]
    split
    · exact hw
    · rename_i hr
      exact hw.conduct hr

end Wired

theorem wired_empty (machine : Machine κ) (options : Options κ) :
    ({ machine, options } : Hub κ).Wired := by
  have hnone (shelf : Shelf) (key : String) :
      ({ machine, options } : Hub κ).service? shelf key = none := by
    cases shelf <;> rfl
  constructor <;> simp [hnone]

variable [BEq κ]

theorem attend_cons (d : Deed κ) (rest : List (Deed κ)) (h : Hub κ) :
    attend (d :: rest) h =
      if (h.perform d).overflowed then h.perform d
      else { attend rest (h.perform d).hub with
        lines := (h.perform d).lines ++ (attend rest (h.perform d).hub).lines } := rfl

/-- And so do any deeds, one after the other. -/
theorem Wired.attend {h : Hub κ} (hw : h.Wired) (deeds : List (Deed κ)) :
    (attend deeds h).hub.Wired := by
  induction deeds generalizing h with
  | nil => exact hw
  | cons d rest ih =>
    rw [attend_cons]
    split
    · exact hw.perform d
    · exact ih (hw.perform d)

end Hub
end TimedMachine
