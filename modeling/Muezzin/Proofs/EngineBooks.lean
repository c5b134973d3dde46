import Mathlib
import Muezzin.Proofs.RegistryBooks
import Muezzin.Proofs.SmallSteps

/-!
# The books of an engine

What the registry keeps by itself, the whole engine keeps over every run: no order of rebuilds,
cancellations, requests and clock settings, and no failure of a collaborator, ever leaves a live
registration without its timer or its report, or a timer without its registration. The memory of
recent runs knows no other keys than the registry, so it does not grow either.
-/

namespace Muezzin

def Debounce.Known (d : Debounce Int) : Prop :=
  ∀ entry ∈ d.lastRuns.toList, entry.1 ∈ Event.keys

namespace Debounce

theorem Known.stamp {d : Debounce Int} (hknown : d.Known) {key : String} (h : key ∈ Event.keys)
    (now : Int) : (d.stamp key now).Known := by
  intro entry hentry
  rcases SortedMap.mem_insertEntry hentry with rfl | hold
  · exact h
  · exact hknown entry hold

theorem nodup_keys {τ : Type} (d : Debounce τ) : (d.lastRuns.toList.map Prod.fst).Nodup := by
  rw [List.nodup_iff_pairwise_ne, List.pairwise_map]
  refine d.lastRuns.sorted.imp fun {a b} hless hsame => ?_
  have hitself : compare b.1 b.1 = Ordering.eq := Std.ReflCmp.compare_self
  rw [hsame, hitself] at hless
  cases hless

theorem Known.size_le {d : Debounce Int} (hknown : d.Known) : d.size ≤ 11 := by
  have hkeys : d.lastRuns.toList.map Prod.fst ⊆ Event.keys := by
    intro key hkey
    obtain ⟨entry, hentry, rfl⟩ := List.mem_map.1 hkey
    exact hknown entry hentry
  have hbound := (List.subperm_of_subset d.nodup_keys hkeys).length_le
  rwa [List.length_map, Event.length_keys] at hbound

end Debounce

/-- What holds at every moment of a run. -/
structure Moment.Sound (m : Moment) : Prop where
  books : m.engine.registry.Consistent m.engine.fires
  proper : ∀ r ∈ m.hand, r.event.Proper
  known : m.engine.debounce.Known

theorem Settlement.known {e : Engine} {inputs : Inputs} {r : Registration} {d : Debounce Int}
    {a : Action} (hsettled : Settlement e inputs r d a) (hproper : r.event.Proper)
    (hknown : e.debounce.Known) : d.Known := by
  cases hsettled with
  | handedOff | unvoiced | rolledOver => exact hknown.stamp hproper.key_mem _
  | suppressed | withdrawn | ignored | superseded => exact hknown

theorem Moment.Step.sound {m n : Moment} (hstep : Step m n) (hsound : m.Sound) : n.Sound := by
  obtain ⟨hbooks, hproper, hknown⟩ := hsound
  cases hstep with
  | setClock e hand history i => exact ⟨hbooks.setClock i, hproper, hknown⟩
  | request e hand history command => exact ⟨hbooks, hproper, hknown⟩
  | takeUp hwaiting => exact ⟨hbooks, hproper, hknown⟩
  | fire hpopped => exact ⟨hbooks.fire hpopped, hproper, hknown⟩
  | drop hwaiting hstale =>
    dsimp only at hbooks
    rw [hwaiting] at hbooks
    exact ⟨hbooks.dropReport hstale, hproper, hknown⟩
  | claim hwaiting hlive =>
    dsimp only at hbooks
    rw [hwaiting] at hbooks
    refine ⟨hbooks.claim hlive, fun g hg => ?_, hknown⟩
    rcases List.mem_append.1 hg with hg | hg
    · exact hproper g hg
    · rw [List.mem_singleton.1 hg]
      exact hbooks.proper _ hlive
  | claimDue e hand history =>
    refine ⟨hbooks.takeDue e.clock, fun g hg => ?_, hknown⟩
    rcases List.mem_append.1 hg with hg | hg
    · exact hproper g hg
    · exact hbooks.proper g (Registry.mem_takeDue.1 hg).1
  | reorder e history hsame => exact ⟨hbooks, fun g hg => hproper g (hsame.mem_iff.2 hg), hknown⟩
  | settle hsettled =>
    refine ⟨hbooks, fun g hg => hproper g (List.mem_cons_of_mem _ hg), ?_⟩
    exact hsettled.known (hproper _ List.mem_cons_self) hknown
  | cancelAll e hand history => exact ⟨hbooks.cancelAll, hproper, hknown⟩
  | enrol due hisProper hfree => exact ⟨hbooks.enrol due hisProper hfree, hproper, hknown⟩
  | note e hand history hnote => exact ⟨hbooks, hproper, hknown⟩

namespace Engine

/-- A new engine waits for nothing, and its configuration is valid. -/
theorem new_eq {config : SchedulerConfig} {clock : Instant} {e : Engine}
    (hcreated : Engine.new config clock = .ok e) :
    config.validate = .ok () ∧
      e = { audio := config.audio, rolloverTime := config.engine.rolloverTime
            registry := { timers := { clock } } } := by
  unfold Engine.new at hcreated
  cases hvalid : config.validate with
  | error complaint =>
    rw [hvalid] at hcreated
    cases hcreated
  | ok checked =>
    rw [hvalid] at hcreated
    cases hcreated
    exact ⟨rfl, rfl⟩

theorem sound_new {config : SchedulerConfig} {clock : Instant} {e : Engine}
    (hcreated : Engine.new config clock = .ok e) : Moment.Sound ⟨e, [], []⟩ := by
  obtain ⟨-, rfl⟩ := new_eq hcreated
  exact ⟨.empty clock, by simp, by simp [Debounce.Known, SortedMap.toList, SortedMap.empty]⟩

/-- Every engine that can come about keeps its books. -/
theorem sound_run {config : SchedulerConfig} {clock : Instant} {e : Engine}
    (hcreated : Engine.new config clock = .ok e) (ops : List Operation) :
    Moment.Sound ⟨(e.run ops).engine, [], (e.run ops).actions⟩ :=
  (leadsTo_run e ops []).keep Moment.Step.sound (sound_new hcreated)

/-- Registry, timers, reports and memory agree with one another. -/
structure BooksAgree (e : Engine) : Prop where
  found : ∀ r ∈ e.registry.live, e.registry.find? r.event.key = some r
  seqs_distinct : (e.registry.live.map Registration.seq).Nodup
  timers_distinct : (e.registry.live.map Registration.timer).Nodup
  issued : ∀ r ∈ e.registry.live, r.seq ≤ e.registry.issued ∧ r.timer ≤ e.timers.issued
  pending_distinct : (e.timers.pending.map Timer.id).Nodup
  /-- Either its timer waits, with its number, its deadline and its report, and the report does
  not; or the report waits once, and no timer with its number or its report does. -/
  awaited : ∀ r ∈ e.registry.live,
    (e.timers.pending.count ⟨r.timer, r.due, ⟨r.event.key, r.seq⟩⟩ = 1 ∧
      ⟨r.event.key, r.seq⟩ ∉ e.fires) ∨
    ((∀ t ∈ e.timers.pending, t.id ≠ r.timer ∧ t.payload ≠ ⟨r.event.key, r.seq⟩) ∧
      e.fires.count ⟨r.event.key, r.seq⟩ = 1)
  owned : ∀ t ∈ e.timers.pending, ∃ r ∈ e.registry.live,
    t = ⟨r.timer, r.due, ⟨r.event.key, r.seq⟩⟩
  all_pending : e.fires = [] → e.timers.pending.length = e.registry.size
  size_le : e.registry.size ≤ 11
  pending_le : e.timers.pending.length ≤ 11
  memory_le : e.debounce.size ≤ 11

/-- However an engine is driven, its books agree. -/
theorem booksAgree_run {config : SchedulerConfig} {clock : Instant} {e : Engine}
    (hcreated : Engine.new config clock = .ok e) (ops : List Operation) :
    (e.run ops).engine.BooksAgree := by
  obtain ⟨hbooks, -, hknown⟩ := sound_run hcreated ops
  dsimp only at hbooks hknown
  exact
    { found := fun r hr => Registry.find?_eq_some hbooks.keys_nodup hr
      seqs_distinct := hbooks.seqs_nodup
      timers_distinct := hbooks.timers_nodup
      issued := fun r hr => ⟨hbooks.seq_le r hr, hbooks.timer_le r hr⟩
      pending_distinct := hbooks.pending_nodup.map_on fun s hs t ht => hbooks.eq_of_id_eq hs ht
      awaited := by
        intro r hr
        by_cases hreported : r.fire ∈ (e.run ops).engine.fires
        · have hunarmed : r.alarm ∉ (e.run ops).engine.registry.timers.pending :=
            fun hwaits => (hbooks.armed_iff r hr).1 hwaits hreported
          refine .inr ⟨fun t ht => ?_, List.count_eq_one_of_mem hbooks.reports_nodup hreported⟩
          obtain ⟨g, hg, rfl⟩ := hbooks.owned t ht
          refine ⟨fun hsame => hunarmed ?_, fun hsame => hunarmed ?_⟩
          · have : g = r := hbooks.eq_of_timer_eq hg hr hsame
            exact this ▸ ht
          · have : g = r := hbooks.eq_of_fire_eq hg hr hsame
            exact this ▸ ht
        · have hwaits := (hbooks.armed_iff r hr).2 hreported
          exact .inl ⟨List.count_eq_one_of_mem hbooks.pending_nodup hwaits, hreported⟩
      owned := hbooks.owned
      all_pending := by
        intro hidle
        rw [hidle] at hbooks
        exact hbooks.length_pending
      size_le := hbooks.length_live_le
      pending_le := Nat.le_trans hbooks.length_pending_le hbooks.length_live_le
      memory_le := hknown.size_le }

/-- Two reports wait next to the timer of the rollover, and the clock has gone back to before they
were due. -/
theorem booksAgree_run_reported :
    ∃ e, Engine.new {} ⟨0, .utc⟩ = .ok e ∧
      ∃ ops, (e.run ops).engine.fires.length = 2 ∧ (e.run ops).engine.timers.pending.length = 1 ∧
        (e.run ops).engine.BooksAgree := by
  obtain ⟨e, hcreated⟩ : ∃ e, Engine.new {} ⟨0, .utc⟩ = .ok e := ⟨_, rfl⟩
  let day := Inputs.daily .maghrib ⟨1080, by decide⟩
  refine ⟨e, hcreated, [.rebuild day, .clear, .rebuild day, .advanceTo ⟨64800000, .utc⟩,
    .setClock ⟨0, .utc⟩], ?_, ?_, booksAgree_run hcreated _⟩
  · obtain ⟨-, rfl⟩ := new_eq hcreated
    cbv
  · obtain ⟨-, rfl⟩ := new_eq hcreated
    cbv

end Engine

end Muezzin
