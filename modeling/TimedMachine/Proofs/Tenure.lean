import TimedMachine.Proofs.Errands

/-!
A registry is the list of the tenures that last. A tenure is founded when a service is made for a key
that is absent, and lasts until the key is removed; what is done through the key meanwhile is done to
that service and to no other (`exists_tenures`). From this everything else follows that an owner may
rely on: the keys stand in the order in which they were founded, makers are called for absent keys
only, and a service that is removed comes back put away (`keepsTenures_attend`).
-/
namespace TimedMachine

variable {κ : Type} [BEq κ]

/-- The key that an errand removes. -/
def Errand.removed? : Errand κ → Option String
  | .remove key => some key
  | _ => none

theorem Errand.removed?_eq_some {e : Errand κ} {key : String} :
    e.removed? = some key ↔ e = .remove key := by
  cases e <;> simp [removed?]

/-- The operations that errands ask for through a key. -/
def operationsOn (key : String) (errands : List (Errand κ)) : List Service.Operation :=
  errands.filterMap fun
    | .operate name op => if name = key then some op else none
    | _ => none

theorem operationsOn_concat (key : String) (errands : List (Errand κ)) (e : Errand κ) :
    operationsOn key (errands ++ [e]) = operationsOn key errands ++ operationsOn key [e] :=
  List.filterMap_append

/-- A request for a service in a list of errands, with the errands before and after it. -/
structure Tenure (κ : Type) [BEq κ] where
  before : List (Errand κ)
  key : String
  maker : Maker κ
  after : List (Errand κ)

namespace Tenure

/-- The request found the key absent, and the key was not removed since. -/
structure Lasts (errands : List (Errand κ)) (t : Tenure κ) : Prop where
  errands : errands = t.before ++ .request t.key t.maker :: t.after
  absent : t.key ∉ (Keeper.attend t.before {}).keys
  kept : .remove t.key ∉ t.after

/-- The service that was made. -/
def founded (t : Tenure κ) : Service κ := (t.maker.make (Keeper.attend t.before {}).board).1

/-- The service after the operations that were applied through its key. -/
def service (t : Tenure κ) : Service κ := t.founded.afterAll (operationsOn t.key t.after)

/-- The tenure goes on for one more errand. -/
def extend (e : Errand κ) (t : Tenure κ) : Tenure κ := { t with after := t.after ++ [e] }

theorem service_extend (e : Errand κ) (t : Tenure κ) :
    (t.extend e).service = t.service.afterAll (operationsOn t.key [e]) := by
  show t.founded.afterAll (operationsOn t.key (t.after ++ [e])) = _
  rw [operationsOn_concat, Service.afterAll_append]
  rfl

theorem reached_founded (t : Tenure κ) : t.founded.Reached := t.maker.reached _

theorem reached_service (t : Tenure κ) : t.service.Reached := t.reached_founded.afterAll _

/-- The tenure that an errand founds. -/
def foundedBy (errands : List (Errand κ)) : Errand κ → List (Tenure κ)
  | .request key maker =>
    if key ∈ (Keeper.attend errands {}).keys then [] else [⟨errands, key, maker, []⟩]
  | _ => []

theorem mem_foundedBy {errands : List (Errand κ)} {e : Errand κ} {t : Tenure κ} :
    t ∈ foundedBy errands e ↔ e = .request t.key t.maker ∧ t.before = errands ∧ t.after = [] ∧
      t.key ∉ (Keeper.attend errands {}).keys := by
  obtain ⟨before, key, maker, after⟩ := t
  cases e with
  | request name other =>
    rw [foundedBy]
    split
    · rename_i hin
      simp only [List.not_mem_nil, Errand.request.injEq, false_iff]
      rintro ⟨⟨rfl, _⟩, _, _, hout⟩
      exact hout hin
    · rename_i hout
      simp only [List.mem_singleton, Tenure.mk.injEq, Errand.request.injEq]
      constructor
      · rintro ⟨rfl, rfl, rfl, rfl⟩
        exact ⟨⟨rfl, rfl⟩, rfl, rfl, hout⟩
      · rintro ⟨⟨rfl, rfl⟩, rfl, rfl, _⟩
        exact ⟨rfl, rfl, rfl, rfl⟩
  | _ => simp [foundedBy]

/-- The tenures that last after one more errand. -/
theorem lasts_concat {errands : List (Errand κ)} {e : Errand κ} {t : Tenure κ} :
    Lasts (errands ++ [e]) t ↔
      (∃ u, Lasts errands u ∧ e.removed? ≠ some u.key ∧ u.extend e = t) ∨
        t ∈ foundedBy errands e := by
  rw [mem_foundedBy]
  constructor
  · rintro ⟨hsplit, habsent, hkept⟩
    rcases Service.split_concat hsplit with ⟨rest, hrest, hafter⟩ | ⟨hbefore, he, hafter⟩
    · rw [hafter, List.mem_append, List.mem_singleton, not_or] at hkept
      refine .inl ⟨{ t with after := rest }, ⟨hrest, habsent, hkept.1⟩, ?_, ?_⟩
      · exact fun hremoved => hkept.2 (Errand.removed?_eq_some.1 hremoved).symm
      · rw [extend, ← hafter]
    · exact .inr ⟨he.symm, hbefore, hafter, hbefore ▸ habsent⟩
  · rintro (⟨u, hu, hremoved, rfl⟩ | ⟨rfl, rfl, hafter, habsent⟩)
    · refine ⟨?_, hu.absent, ?_⟩
      · rw [hu.errands]
        simp [extend]
      · show .remove u.key ∉ u.after ++ [e]
        rw [List.mem_append, List.mem_singleton, not_or]
        exact ⟨hu.kept, fun he => hremoved (Errand.removed?_eq_some.2 he.symm)⟩
    · exact ⟨by rw [hafter], habsent, by simp [hafter]⟩

theorem Lasts.before_lt {errands : List (Errand κ)} {t : Tenure κ} (h : Lasts errands t) :
    t.before.length < errands.length := by
  rw [h.errands]
  simp

end Tenure

namespace Keeper

open Tenure

/-- The keeper has the services of these tenures, in this order. They are those that last, and each
was founded after those before it. -/
structure Holds (errands : List (Errand κ)) (k : Keeper κ) (ts : List (Tenure κ)) : Prop where
  lasting : ∀ t, t ∈ ts ↔ Lasts errands t
  ordered : ts.Pairwise fun t u => t.before.length < u.before.length
  keys : k.keys = ts.map Tenure.key
  services : ∀ t ∈ ts, k.get? t.key = some t.service

/-- The tenures after one more errand: those that it does not end go on, and it may found one. -/
def tenuresAfter (errands : List (Errand κ)) (e : Errand κ) (ts : List (Tenure κ)) :
    List (Tenure κ) :=
  (ts.filter fun t => e.removed? ≠ some t.key).map (Tenure.extend e) ++ foundedBy errands e

theorem map_key_extend (e : Errand κ) (ts : List (Tenure κ)) :
    (ts.map (Tenure.extend e)).map Tenure.key = ts.map Tenure.key := by
  rw [List.map_map]
  rfl

theorem keys_tenuresAfter {errands : List (Errand κ)} {e : Errand κ} {ts : List (Tenure κ)}
    (h : Holds errands (attend errands {}) ts) :
    ((attend errands {}).perform e).keys = (tenuresAfter errands e ts).map Tenure.key := by
  have hall {e : Errand κ} (he : e.removed? = none) :
      ts.filter (fun t => e.removed? ≠ some t.key) = ts :=
    List.filter_eq_self.2 fun t _ => by simp [he]
  rw [keys_perform, tenuresAfter, List.map_append, map_key_extend]
  cases e with
  | request key maker =>
    rw [hall rfl, ← h.keys]
    simp only [foundedBy]
    split <;> simp
  | remove key =>
    simp only [h.keys, Errand.removed?, foundedBy, List.map_nil, List.append_nil, List.filter_map]
    congr 2
    funext t
    simp [eq_comm]
  | operate | subscribe | unsubscribe =>
    rw [hall rfl, ← h.keys]
    simp [foundedBy]

theorem get?_extend {errands : List (Errand κ)} {e : Errand κ} {ts : List (Tenure κ)}
    (h : Holds errands (attend errands {}) ts) {t : Tenure κ} (ht : t ∈ ts)
    (hremoved : e.removed? ≠ some t.key) :
    ((attend errands {}).perform e).get? t.key = some (t.extend e).service := by
  have hservice := h.services t ht
  have hkey : t.key ∈ (attend errands {}).keys := mem_keys_iff.2 ⟨_, hservice⟩
  rw [get?_perform, service_extend]
  cases e with
  | request key maker =>
    have hold : ¬ (t.key = key ∧ key ∉ (attend errands {}).keys) := fun hnew =>
      hnew.2 (hnew.1 ▸ hkey)
    simp only [if_neg hold, hservice]
    rfl
  | operate key op =>
    by_cases hother : t.key = key
    · subst hother
      simp [hservice, operationsOn, Service.afterAll]
    · simp [hother, Ne.symm hother, hservice, operationsOn, Service.afterAll]
  | remove key =>
    have hother : t.key ≠ key := fun heq => hremoved (congrArg some heq.symm)
    simp only [if_neg hother, hservice]
    rfl
  | subscribe => exact hservice
  | unsubscribe => exact hservice

/-- One more errand. -/
theorem Holds.perform {errands : List (Errand κ)} {ts : List (Tenure κ)}
    (h : Holds errands (attend errands {}) ts) (e : Errand κ) :
    Holds (errands ++ [e]) ((attend errands {}).perform e) (tenuresAfter errands e ts) where
  lasting t := by
    rw [lasts_concat, tenuresAfter, List.mem_append]
    refine or_congr_left ?_
    simp only [List.mem_map, List.mem_filter, h.lasting, decide_eq_true_eq, and_assoc]
  ordered := by
    have hkept : (ts.filter fun t => e.removed? ≠ some t.key).Pairwise
        fun t u => t.before.length < u.before.length := h.ordered.sublist List.filter_sublist
    refine List.pairwise_append.2 ⟨List.pairwise_map.2 hkept, ?_, ?_⟩
    · cases e with
      | request key maker =>
        rw [foundedBy]
        split
        · exact .nil
        · exact List.pairwise_singleton _ _
      | _ => exact .nil
    · intro t ht u hu
      obtain ⟨v, hv, rfl⟩ := List.mem_map.1 ht
      have hlast := (h.lasting v).1 (List.mem_filter.1 hv).1
      rw [(mem_foundedBy.1 hu).2.1]
      exact hlast.before_lt
  keys := keys_tenuresAfter h
  services t ht := by
    rcases List.mem_append.1 ht with ht | ht
    · obtain ⟨u, hu, rfl⟩ := List.mem_map.1 ht
      obtain ⟨hin, hremoved⟩ := List.mem_filter.1 hu
      exact get?_extend h hin (of_decide_eq_true hremoved)
    · obtain ⟨rfl, rfl, hafter, habsent⟩ := mem_foundedBy.1 ht
      rw [get?_perform]
      simp only [habsent, not_false_eq_true, and_self, if_true, Tenure.service, hafter]
      rfl

theorem exists_tenures (errands : List (Errand κ)) :
    ∃ ts, Holds errands (attend errands {}) ts := by
  induction errands using List.reverseRecOn with
  | nil =>
    refine ⟨[], fun t => ?_, .nil, rfl, by simp⟩
    simp only [List.not_mem_nil, false_iff]
    rintro ⟨hsplit, _, _⟩
    simp at hsplit
  | append_singleton errands e ih =>
    obtain ⟨ts, hts⟩ := ih
    rw [attend_concat]
    exact ⟨_, hts.perform e⟩

theorem reached_of_get? {errands : List (Errand κ)} {key : String} {s : Service κ}
    (h : (attend errands {}).get? key = some s) : s.Reached := by
  obtain ⟨ts, hts⟩ := exists_tenures errands
  have hkey : key ∈ ts.map Tenure.key := hts.keys ▸ mem_keys_iff.2 ⟨s, h⟩
  obtain ⟨t, ht, rfl⟩ := List.mem_map.1 hkey
  obtain rfl := Option.some.inj ((hts.services t ht).symm.trans h)
  exact t.reached_service

/-- Each service that is made has a channel that no service in the registry has then. -/
def Owned (errands : List (Errand κ)) : Prop :=
  ∀ t : Tenure κ, errands = t.before ++ .request t.key t.maker :: t.after →
    t.key ∉ (attend t.before {}).keys →
    ∀ other s, (attend t.before {}).get? other = some s → s.channel ≠ t.founded.channel

theorem Owned.init {errands : List (Errand κ)} {e : Errand κ} (h : Owned (errands ++ [e])) :
    Owned errands := by
  intro t hsplit
  exact h (t.extend e) (by rw [hsplit]; simp [Tenure.extend])

/-- A service has the channel of the one that was under its key before, unless it was just made. -/
theorem channel_of_get?_perform {k : Keeper κ} {e : Errand κ} {key : String} {s : Service κ}
    (h : (k.perform e).get? key = some s) :
    (∃ u, k.get? key = some u ∧ u.channel = s.channel) ∨
      ∃ maker, e = .request key maker ∧ key ∉ k.keys ∧ s = (maker.make k.board).1 := by
  rw [get?_perform] at h
  cases e with
  | request name maker =>
    dsimp only at h
    split at h
    · rename_i hnew
      obtain ⟨rfl, habsent⟩ := hnew
      exact .inr ⟨maker, rfl, habsent, (Option.some.inj h).symm⟩
    · exact .inl ⟨s, h, rfl⟩
  | operate name op =>
    dsimp only at h
    split at h
    · obtain ⟨u, hu, rfl⟩ := Option.map_eq_some_iff.1 h
      exact .inl ⟨u, hu, (Service.Steps.continues (u.steps_apply op)).channel.symm⟩
    · exact .inl ⟨s, h, rfl⟩
  | remove name =>
    dsimp only at h
    split at h
    · cases h
    · exact .inl ⟨s, h, rfl⟩
  | subscribe => exact .inl ⟨s, h, rfl⟩
  | unsubscribe => exact .inl ⟨s, h, rfl⟩

theorem Owned.apart {errands : List (Errand κ)} (h : Owned errands) {key other : String}
    {s u : Service κ} (hs : (attend errands {}).get? key = some s)
    (hu : (attend errands {}).get? other = some u) (hsame : s.channel = u.channel) :
    key = other := by
  induction errands using List.reverseRecOn generalizing key other s u with
  | nil => cases hs
  | append_singleton errands e ih =>
    have hfresh {key : String} {maker : Maker κ} (he : e = .request key maker)
        (habsent : key ∉ (attend errands {}).keys) {other : String} {u : Service κ}
        (hu : (attend errands {}).get? other = some u) :
        u.channel ≠ (maker.make (attend errands {}).board).1.channel :=
      h ⟨errands, key, maker, []⟩ (by rw [he]) habsent other u hu
    rw [attend_concat] at hs hu
    rcases channel_of_get?_perform hs with ⟨s', hs', hchannel⟩ | ⟨maker, he, habsent, rfl⟩ <;>
      rcases channel_of_get?_perform hu with ⟨u', hu', hchannel'⟩ | ⟨maker', he', habsent', rfl⟩
    · exact ih h.init hs' hu' (by rw [hchannel, hchannel', hsame])
    · exact absurd (hchannel.trans hsame) (hfresh he' habsent' hs')
    · exact absurd (hchannel'.trans hsame.symm) (hfresh he habsent hu')
    · rw [he] at he'
      exact (Errand.request.inj he').1

/-- All makers open a channel for the service that they make. -/
def Hosted (errands : List (Errand κ)) : Prop :=
  ∀ key maker, .request key maker ∈ errands →
    ∃ machine options, maker = Maker.host machine options

/-- No channel is ever taken away, and hosting opens one. -/
theorem length_channels_le_perform {k : Keeper κ} {e : Errand κ} (h : Hosted [e]) :
    k.board.channels.length ≤ (k.perform e).board.channels.length := by
  cases e with
  | request key maker =>
    obtain ⟨machine, options, rfl⟩ := h key maker List.mem_cons_self
    show _ ≤ (k.request key _).2.board.channels.length
    cases hs : k.get? key with
    | some s => rw [request_of_some hs]
    | none =>
      rw [request_of_none hs]
      simp [Maker.host, Service.host, Switchboard.openChannel]
  | operate key op => exact Nat.le_of_eq (k.sameChannels_board_operate key op).length.symm
  | subscribe key name l =>
    exact Nat.le_of_eq (k.sameChannels_board_subscribe key name l).length.symm
  | unsubscribe handle => exact Nat.le_of_eq (k.board.sameChannels_unsubscribe handle).length.symm
  | remove => exact Nat.le_refl _

/-- What is hosted has one of the channels that were opened. -/
theorem Hosted.channel_lt {errands : List (Errand κ)} (h : Hosted errands) {key : String}
    {s : Service κ} (hs : (attend errands {}).get? key = some s) :
    s.channel < (attend errands {}).board.channels.length := by
  induction errands using List.reverseRecOn generalizing key s with
  | nil => cases hs
  | append_singleton errands e ih =>
    have hinit : Hosted errands := fun name maker hin =>
      h name maker (List.mem_append_left _ hin)
    have hlast : Hosted [e] := fun name maker hin => h name maker (List.mem_append_right _ hin)
    rw [attend_concat] at hs ⊢
    rcases channel_of_get?_perform hs with ⟨u, hu, hchannel⟩ | ⟨maker, rfl, habsent, rfl⟩
    · rw [← hchannel]
      exact Nat.lt_of_lt_of_le (ih hinit hu) (length_channels_le_perform hlast)
    · obtain ⟨machine, options, rfl⟩ := hlast key maker List.mem_cons_self
      show _ < ((attend errands {}).request key _).2.board.channels.length
      rw [request_of_none (not_mem_keys_iff.1 habsent)]
      simp [Maker.host, Service.host, Switchboard.openChannel, Service.create]

theorem Hosted.owned {errands : List (Errand κ)} (h : Hosted errands) : Owned errands := by
  intro t hsplit _ other s hs
  have hbefore : Hosted t.before := fun key maker hin =>
    h key maker (hsplit ▸ List.mem_append_left _ hin)
  obtain ⟨machine, options, hmaker⟩ := h t.key t.maker (hsplit ▸ by simp)
  have hchannel : t.founded.channel = (attend t.before {}).board.channels.length := by
    rw [Tenure.founded, hmaker]
    rfl
  rw [hchannel]
  exact Nat.ne_of_lt (hbefore.channel_lt hs)

/-- What an owner can rely on after errands, and whatever comes next. -/
structure Orderly (errands : List (Errand κ)) (k : Keeper κ) : Prop where
  nodup : k.keys.Nodup
  size : k.registry.size = k.keys.length
  contains : ∀ key, k.registry.contains key = true ↔ key ∈ k.keys
  present : ∀ key, key ∈ k.keys ↔ ∃ s, k.get? key = some s
  tenures : ∃ ts, Holds errands k ts
  /-- A maker is called once if the key is absent, and no errand calls one otherwise. -/
  calls : ∀ e, (k.perform e).made = k.made ++
    match e with
    | .request key _ => if key ∈ k.keys then [] else [key]
    | _ => []
  finds : ∀ key s maker, k.get? key = some s → k.request key maker = (s, k)
  /-- A service that is made goes last, and those under other keys stay. -/
  founds : ∀ key maker, key ∉ k.keys →
    (k.request key maker).1 = (maker.make k.board).1 ∧
    (k.request key maker).2.keys = k.keys ++ [key] ∧
    ∀ other, (k.request key maker).2.get? other =
      if other = key then some (maker.make k.board).1 else k.get? other
  /-- An operation changes the service under its key. The others stay, but for subscriptions that are
  ended by listeners that are called. -/
  operates : ∀ key s op, k.get? key = some s →
    (k.perform (.operate key op)).keys = k.keys ∧
    (∀ other, (k.perform (.operate key op)).get? other =
      if other = key then some (s.apply op).service else k.get? other) ∧
    ∃ hearings : List (Hearing κ),
      (s.conduct op k.board).2.2.filter Line.isHeard = hearings.map Hearing.line ∧
      Switchboard.Hears s.channel k.board hearings (k.perform (.operate key op)).board
  subscribes : ∀ key s name l, k.get? key = some s →
    (k.perform (.subscribe key name l)).registry = k.registry ∧
    ∀ channel, channel ≠ s.channel →
      (k.perform (.subscribe key name l)).board.listeners channel = k.board.listeners channel
  apart : Owned errands → ∀ key s other u, k.get? key = some s → k.get? other = some u →
    s.channel = u.channel → key = other
  /-- A service that is removed comes back put away. The others stay in their order, and the next
  request for the key makes a new one. -/
  removes : ∀ key s, k.get? key = some s →
    (k.registry.remove key).1 = some s.stop ∧ s.PutAway s.stop ∧
    (k.perform (.remove key)).board = k.board ∧
    (k.perform (.remove key)).keys = k.keys.filter (· ≠ key) ∧
    (∀ other, (k.perform (.remove key)).get? other =
      if other = key then none else k.get? other) ∧
    ∀ maker, ((k.perform (.remove key)).request key maker).1 = (maker.make k.board).1 ∧
      ((k.perform (.remove key)).request key maker).2.keys = k.keys.filter (· ≠ key) ++ [key]
  misses : ∀ key, key ∉ k.keys →
    k.registry.remove key = (none, k.registry) ∧ k.perform (.remove key) = k

/-- The registry after any errands, in any order. -/
theorem keepsTenures_attend (errands : List (Errand κ)) : Orderly errands (attend errands {}) := by
  constructor
  case nodup => exact Table.keys_nodup _
  case size => exact (List.length_map _).symm
  case contains => exact fun key => Table.contains_iff _ key
  case present => exact fun key => mem_keys_iff
  case tenures => exact exists_tenures errands
  case calls => exact fun e => made_perform _ e
  case finds => exact fun key s maker hs => request_of_some hs maker
  case founds => exact fun key maker habsent => founds_of_absent maker habsent
  case operates =>
    intro key s op hs
    refine ⟨keys_operate _ key op, fun other => ?_, exists_hears_operate hs op⟩
    rw [get?_perform]
    by_cases hother : other = key
    · simp [hother, hs]
    · simp [hother]
  case subscribes =>
    intro key s name l hs
    exact ⟨registry_subscribe _ key name l, fun channel hchannel =>
      listeners_perform_subscribe_ne hs hchannel name l⟩
  case apart => exact fun howned key s other u hs hu hsame => howned.apart hs hu hsame
  case removes =>
    intro key s hs
    have hremoved : (attend errands {}).registry.get? key = some s := hs
    refine ⟨?_, (reached_of_get? hs).poised.putAway_stop, rfl, keys_remove _ key, ?_, ?_⟩
    · rw [Registry.remove, hremoved, Option.map_some]
    · exact fun other => get?_perform _ (.remove key) other
    · exact fun maker => request_perform_remove maker
  case misses =>
    intro key habsent
    exact ⟨remove_of_none (not_mem_keys_iff.1 habsent), perform_remove_of_absent habsent⟩

/-- Two crossings side by side, one of them on and asked for twice. -/
def crossings : List (Errand Nat) :=
  [.request "north" (.host crossing crossingOptions), .request "south" (.host crossing crossingOptions),
    .operate "north" .start, .request "north" (.host crossing crossingOptions)]

theorem keepsTenures_crossings :
    ∃ s u, (attend crossings {}).get? "north" = some s ∧ (attend crossings {}).get? "south" = some u ∧
      s.channel ≠ u.channel ∧ (attend crossings {}).made = ["north", "south"] ∧
      ((attend crossings {}).registry.remove "north").1 = some s.stop ∧ s.PutAway s.stop ∧
      ((attend crossings {}).perform (.remove "north")).get? "south" = some u ∧
      ∀ maker, (((attend crossings {}).perform (.remove "north")).request "north" maker).2.keys =
        ["south", "north"] := by
  have horderly := keepsTenures_attend crossings
  have hhosted : Hosted crossings := by
    intro key maker hin
    simp only [crossings, List.mem_cons, Errand.request.injEq, reduceCtorEq, List.not_mem_nil] at hin
    rcases hin with ⟨_, rfl⟩ | ⟨_, rfl⟩ | hin | ⟨_, rfl⟩ | hin
    · exact ⟨_, _, rfl⟩
    · exact ⟨_, _, rfl⟩
    · exact hin.elim
    · exact ⟨_, _, rfl⟩
    · exact hin.elim
  have hkeys : (attend crossings {}).keys = ["north", "south"] := by
    simp [crossings, attend, keys_perform]
  obtain ⟨s, hs⟩ := (horderly.present "north").1 (by simp [hkeys])
  obtain ⟨u, hu⟩ := (horderly.present "south").1 (by simp [hkeys])
  obtain ⟨hstop, hput, _, _, hothers, hnext⟩ := horderly.removes "north" s hs
  refine ⟨s, u, hs, hu, fun hsame => ?_, ?_, hstop, hput, ?_, fun maker => ?_⟩
  · exact absurd (horderly.apart hhosted.owned _ _ _ _ hs hu hsame) (by decide)
  · simp [crossings, attend, made_perform, keys_perform]
  · rw [hothers, if_neg (by decide), hu]
  · rw [(hnext maker).2, hkeys]
    decide

end Keeper
end TimedMachine
