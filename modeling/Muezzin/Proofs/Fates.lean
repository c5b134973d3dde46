import Muezzin.Proofs.Replacement
import Muezzin.Proofs.Validation

/-!
# What becomes of a registration

Nothing gets lost and nothing happens twice. Every registration that was ever made is live, or in
hand, or was cancelled, or was settled by one action, and each small step moves registrations from
one of these accounts to another. Numbers are never used again, so one account has it, and only
once. What was cancelled or settled stays so because the record of a run only grows.

The settling action fits the event. An azan or an announcement always has a prayer and a file,
since schedules name the prayer and a valid configuration names the files. A rollover that runs is
followed by a rebuild at once, and one that is superseded belongs to the rebuild that claimed it.
-/

namespace Muezzin

/-- What can have become of a registration. -/
inductive Fate where
  | live
  | cancelled
  | settled (a : Action)

def Outcome.made (o : Outcome) : List Registration :=
  o.actions.filterMap Action.arms?

/-- Everything that has become of a registration, as often as it has. -/
def Outcome.fates (o : Outcome) (r : Registration) : List Fate :=
  List.replicate (o.engine.registry.live.count r) .live ++
    List.replicate ((o.actions.flatMap Action.cancels).count r) .cancelled ++
      (o.actions.filter (·.settles? = some r)).map .settled

/-- The ends that a registration can come to. -/
inductive Fate.Fits (audio : AudioConfig) (r : Registration) : Fate → Prop
  | live : Fits audio r .live
  | cancelled : Fits audio r .cancelled
  | handedOff {file : String} {now : Instant} (hplays : r.event.kind ≠ .rollover)
      (hvoiced : audio.fileFor r.event = some file) :
      Fits audio r (.settled (.handedOff r file now))
  | suppressed {elapsed : Int} : Fits audio r (.settled (.suppressed r elapsed))
  | withdrawn {cause : Withdrawal} (hannounced : r.event.kind = .announcement) :
      Fits audio r (.settled (.withdrawn r cause))
  | rolledOver {now : Instant} (hrolls : r.event.kind = .rollover) :
      Fits audio r (.settled (.rolledOver r now))
  | superseded (hrolls : r.event.kind = .rollover) : Fits audio r (.settled (.superseded r))

namespace AudioConfig

theorem exists_fileFor {audio : AudioConfig} (hvalid : audio.validate = .ok ()) {e : Event}
    (hproper : e.Proper) (hplays : e.kind ≠ .rollover) : ∃ file, audio.fileFor e = some file := by
  obtain ⟨file, hfound, -⟩ := ((named_of_validate hvalid).fileFor hproper).2 hplays
  exact ⟨file, hfound⟩

end AudioConfig

/-- An action settles a proper event in a fitting way, when the files are valid. -/
theorem Settlement.fits {e : Engine} {inputs : Inputs} {r : Registration} {d : Debounce Int}
    {a : Action} (hsettled : Settlement e inputs r d a) (hvalid : e.audio.validate = .ok ())
    (hproper : r.event.Proper) : Fate.Fits e.audio r (.settled a) := by
  cases hsettled with
  | handedOff hplays _ _ hvoiced => exact .handedOff hplays hvoiced
  | unvoiced hplays _ hsilent =>
    obtain ⟨file, hvoiced⟩ := AudioConfig.exists_fileFor hvalid hproper hplays
    rw [hsilent] at hvoiced
    cases hvoiced
  | suppressed _ => exact .suppressed
  | withdrawn hannounced _ _ => exact .withdrawn hannounced
  | ignored hplays hnobody =>
    obtain ⟨p, -, hprayer⟩ := hproper.prayer_of_ne_rollover hplays
    rw [hnobody] at hprayer
    cases hprayer
  | superseded hrolls => exact .superseded hrolls
  | rolledOver hrolls _ => exact .rolledOver hrolls

namespace Moment

def accounts (m : Moment) (r : Registration) : Nat :=
  m.engine.registry.live.count r + m.hand.count r +
    (m.history.filterMap Action.settles?).count r + (m.history.flatMap Action.cancels).count r

/-- Every registration that was made is in one account, its number is its own, and whatever was
settled came to a fitting end. -/
structure Accounted (audio : AudioConfig) (m : Moment) : Prop where
  sound : m.Sound
  audio_eq : m.engine.audio = audio
  balanced : ∀ r, m.accounts r = (m.history.filterMap Action.arms?).count r
  numbered : (m.history.filterMap Action.arms?).map Registration.seq =
    List.range' 1 m.engine.registry.issued
  fits : ∀ a ∈ m.history, ∀ r, a.settles? = some r → Fate.Fits audio r (.settled a)

theorem filterMap_snoc (f : Action → Option Registration) (history : List Action) (a : Action) :
    (history ++ [a]).filterMap f = history.filterMap f ++ (f a).toList := by
  cases h : f a <;> simp [h]

/-- An action that is added changes the accounts by what it settles and cancels. -/
theorem accounts_snoc (e : Engine) (hand : List Registration) (history : List Action) (a : Action)
    (r : Registration) :
    accounts ⟨e, hand, history ++ [a]⟩ r =
      accounts ⟨e, hand, history⟩ r + a.settles?.toList.count r + a.cancels.count r := by
  simp only [accounts, filterMap_snoc, List.flatMap_append, List.count_append,
    List.flatMap_singleton]
  omega

theorem Step.accounted {audio : AudioConfig} (hvalid : audio.validate = .ok ()) {m n : Moment}
    (hstep : Step m n) (h : m.Accounted audio) : n.Accounted audio := by
  have hsound := hstep.sound h.sound
  obtain ⟨⟨hbooks, hproper, -⟩, rfl, hbalanced, hnumbered, hfits⟩ := h
  have hsnoc {e : Engine} {history : List Action} {a : Action}
      (hold : ∀ b ∈ history, ∀ r, b.settles? = some r → Fate.Fits e.audio r (.settled b))
      (hnew : ∀ r, a.settles? = some r → Fate.Fits e.audio r (.settled a)) :
      ∀ b ∈ history ++ [a], ∀ r, b.settles? = some r → Fate.Fits e.audio r (.settled b) := by
    intro b hb
    rcases List.mem_append.1 hb with hb | hb
    · exact hold b hb
    · rw [List.mem_singleton.1 hb]
      exact hnew
  cases hstep with
  | setClock | request | takeUp | fire | drop => exact ⟨hsound, rfl, hbalanced, hnumbered, hfits⟩
  | @claim e hand history r fires hwaiting hlive =>
    -- A claim moves one registration from `live` to `hand`, which leaves the sum as it is.
    refine ⟨hsound, rfl, fun g => ?_, hnumbered, hfits⟩
    have hmoved : e.registry.live.count g = [r].count g + (e.registry.remove r).live.count g := by
      rw [(Registry.perm_remove hbooks.distinct hlive).count_eq, ← List.singleton_append,
        List.count_append]
    have hbefore := hbalanced g
    simp only [accounts, List.count_append] at hbefore ⊢
    omega
  | claimDue e hand history =>
    refine ⟨hsound, rfl, fun g => ?_, ?_, hfits⟩
    · have hmoved := (Registry.perm_takeDue e.registry e.clock).count_eq g
      have hbefore := hbalanced g
      simp only [accounts, List.count_append] at hbefore hmoved ⊢
      omega
    · show _ = List.range' 1 (e.registry.dropAll _).issued
      rw [Registry.dropAll_eq]
      exact hnumbered
  | reorder e history hsame =>
    refine ⟨hsound, rfl, fun g => ?_, hnumbered, hfits⟩
    have hbefore := hbalanced g
    simp only [accounts, hsame.count_eq] at hbefore ⊢
    exact hbefore
  | @settle e inputs r hand history d a hsettled =>
    refine ⟨hsound, rfl, fun g => ?_, ?_, ?_⟩
    · have hbefore := hbalanced g
      rw [accounts_snoc, filterMap_snoc, hsettled.settles_eq, hsettled.cancels_eq, hsettled.arms_eq]
      rw [← List.singleton_append] at hbefore
      simp only [accounts, List.count_append, Option.toList, List.count_nil] at hbefore ⊢
      omega
    · rw [filterMap_snoc, hsettled.arms_eq, Option.toList, List.append_nil]
      exact hnumbered
    · refine hsnoc hfits fun g hg => ?_
      rw [hsettled.settles_eq] at hg
      cases hg
      exact hsettled.fits hvalid (hproper _ List.mem_cons_self)
  | cancelAll e hand history =>
    refine ⟨hsound, rfl, fun g => ?_, ?_, hsnoc hfits fun g hg => by cases hg⟩
    · have hbefore := hbalanced g
      have hmoved : e.registry.live.count g = e.registry.listing.count g :=
        ((Registry.perm_listing e.registry).count_eq g).symm
      have hnone : e.clear.2.engine.registry.live = [] := Registry.live_cancelAll e.registry
      rw [accounts_snoc, filterMap_snoc]
      simp only [accounts, hnone, Action.settles?, Action.cancels, Action.arms?, Option.toList,
        List.count_append, List.count_nil] at hbefore ⊢
      omega
    · show _ = List.range' 1 (e.registry.dropAll _).issued
      have harmsNone : (Action.cancelled e.registry.listing).arms? = none := rfl
      rw [filterMap_snoc, Registry.dropAll_eq, harmsNone, Option.toList, List.append_nil]
      exact hnumbered
  | @enrol e hand history event due hisProper hfree =>
    refine ⟨hsound, rfl, fun g => ?_, ?_, hsnoc hfits fun g hg => by cases hg⟩
    · have hbefore := hbalanced g
      rw [accounts_snoc, filterMap_snoc]
      simp only [accounts, Registry.enrol, Action.settles?, Action.cancels, Action.arms?,
        Option.toList, List.count_append, List.count_nil] at hbefore ⊢
      omega
    · rw [filterMap_snoc, List.map_append, hnumbered]
      show List.range' 1 e.registry.issued ++ [e.registry.issued + 1] =
        List.range' 1 (e.registry.issued + 1)
      rw [List.range'_1_concat, Nat.add_comm 1]
  | @note e hand history a hnote =>
    obtain ⟨hsettlesNone, hcancelsNone, harmsNone⟩ := hnote
    refine ⟨hsound, rfl, fun g => ?_, ?_, hsnoc hfits fun g hg => ?_⟩
    · rw [accounts_snoc, filterMap_snoc, hsettlesNone, hcancelsNone, harmsNone]
      simp only [Option.toList, List.append_nil, List.count_nil]
      exact hbalanced g
    · rw [filterMap_snoc, harmsNone, Option.toList, List.append_nil]
      exact hnumbered
    · rw [hsettlesNone] at hg
      cases hg

end Moment

namespace Engine

theorem accounted_run {config : SchedulerConfig} {clock : Instant} {e : Engine}
    (hcreated : Engine.new config clock = .ok e) (ops : List Operation) :
    Moment.Accounted config.audio ⟨(e.run ops).engine, [], (e.run ops).actions⟩ := by
  have hsound := sound_new hcreated
  obtain ⟨hvalid, rfl⟩ := new_eq hcreated
  have hfiles := SchedulerConfig.validate_audio hvalid
  refine (leadsTo_run _ ops []).keep (fun hstep => hstep.accounted hfiles) ?_
  exact ⟨hsound, rfl, fun r => rfl, rfl, by simp⟩

end Engine

/-- The actions of a whole rebuild stand in the history, right after those of `lead`. -/
def HasRebuild (history lead : List Action) (P : Engine → Prop) : Prop :=
  ∃ before e inputs after,
    history = before ++ lead ++ (Engine.rebuild e inputs).actions ++ after ∧ P e

theorem HasRebuild.append {history lead : List Action} {P : Engine → Prop}
    (h : HasRebuild history lead P) (earlier later : List Action) :
    HasRebuild (earlier ++ history ++ later) lead P := by
  obtain ⟨before, e, inputs, after, rfl, hholds⟩ := h
  exact ⟨earlier ++ before, e, inputs, after ++ later, by simp only [List.append_assoc], hholds⟩

/-- Every rollover that ran is followed by a rebuild, and every one that was superseded was claimed
by one. -/
structure RolloversRebuild (history : List Action) : Prop where
  ran : ∀ r now, .rolledOver r now ∈ history →
    HasRebuild history [.rolledOver r now] fun e => e.clock = now
  superseded : ∀ r, .superseded r ∈ history → HasRebuild history [] fun e => r ∈ e.claimDue.1

namespace RolloversRebuild

theorem append {early late : List Action} (hfirst : RolloversRebuild early)
    (hsecond : RolloversRebuild late) : RolloversRebuild (early ++ late) where
  ran := by
    intro r now h
    rcases List.mem_append.1 h with h | h
    · simpa using (hfirst.ran r now h).append [] late
    · simpa using (hsecond.ran r now h).append early []
  superseded := by
    intro r h
    rcases List.mem_append.1 h with h | h
    · simpa using (hfirst.superseded r h).append [] late
    · simpa using (hsecond.superseded r h).append early []

theorem of_none {history : List Action}
    (hnone : ∀ a ∈ history, ∀ r now, a ≠ .rolledOver r now ∧ a ≠ .superseded r) :
    RolloversRebuild history where
  ran r now h := absurd rfl (hnone _ h r now).1
  superseded r h := absurd rfl (hnone _ h r default).2

theorem of_rebuild (e : Engine) (inputs : Inputs) :
    RolloversRebuild (e.rebuild inputs).actions where
  ran := by
    intro r now h
    rcases Engine.mem_actions_rebuild h with ⟨g, -, f, d, hsettled, hreplaced⟩ | hunsettled
    · cases hsettled with
      | rolledOver hrolls => cases hreplaced hrolls
    · cases hunsettled
  superseded := by
    intro r h
    refine ⟨[], e, inputs, [], by simp, ?_⟩
    rcases Engine.mem_actions_rebuild h with ⟨g, hclaimed, f, d, hsettled, -⟩ | hunsettled
    · cases hsettled with
      | superseded => exact hclaimed
    · cases hunsettled

theorem of_rolledOver (e : Engine) (inputs : Inputs) (r : Registration) :
    RolloversRebuild (.rolledOver r e.clock :: (e.rebuild inputs).actions) where
  ran := by
    intro g now h
    rcases List.mem_cons.1 h with hsame | h
    · cases hsame
      exact ⟨[], e, inputs, [], by simp, rfl⟩
    · simpa using ((of_rebuild e inputs).ran g now h).append [.rolledOver r e.clock] []
  superseded := by
    intro g h
    rcases List.mem_cons.1 h with hsame | h
    · cases hsame
    · simpa using ((of_rebuild e inputs).superseded g h).append [.rolledOver r e.clock] []

end RolloversRebuild

namespace Engine

theorem rolloversRebuild_rollOver (e : Engine) (inputs : Inputs) (r : Registration) :
    RolloversRebuild (e.rollOver inputs r).actions := by
  by_cases hallowed : e.debounce.allows r.key e.clock.millis
  · rw [rollOver_of_allows hallowed]
    exact .of_rolledOver { e with debounce := e.debounce.stamp r.key e.clock.millis } inputs r
  · rw [rollOver_of_not_allows hallowed]
    exact .of_none fun a ha g now => by simp [List.mem_singleton.1 ha]

theorem rolloversRebuild_handleFire (e : Engine) (inputs : Inputs) (report : Fire) :
    RolloversRebuild (e.handleFire inputs report).actions := by
  rcases handleFire_cases e inputs report with
    ⟨-, houtcome⟩ | ⟨r, -, -, ⟨hplays, d, a, hsettled, houtcome⟩ | ⟨-, houtcome⟩⟩
  · rw [houtcome]
    exact .of_none fun a ha g now => by simp [List.mem_singleton.1 ha]
  · rw [houtcome]
    refine .of_none fun b hb g now => ?_
    rw [List.mem_singleton.1 hb]
    cases hsettled with
    | rolledOver hrolls | superseded hrolls => exact absurd hrolls hplays
    | handedOff | unvoiced | suppressed | withdrawn | ignored => exact ⟨by simp, by simp⟩
  · rw [houtcome]
    exact rolloversRebuild_rollOver _ inputs r

theorem rolloversRebuild_handle (e : Engine) (inputs : Inputs) (message : Message) :
    RolloversRebuild (e.handle inputs message).actions := by
  cases message with
  | fire report => exact rolloversRebuild_handleFire e inputs report
  | command command =>
    cases command with
    | reschedule reason =>
      have hnote : RolloversRebuild [.rescheduling reason] := .of_none (by simp)
      exact hnote.append (.of_rebuild e inputs)
    | clear =>
      refine .of_none fun a ha g now => ?_
      rcases List.mem_cons.1 ha with rfl | ha
      · simp
      · simp [List.mem_singleton.1 ha]

theorem rolloversRebuild_processPending (e : Engine) (inputs : Inputs) :
    RolloversRebuild (e.processPending inputs).2.actions := by
  apply processPending_induction (motive := fun _ o => RolloversRebuild o.actions)
  · intro e hidle
    exact .of_none (by simp)
  · intro e rest message hwaiting hlater
    exact (rolloversRebuild_handle rest inputs message).append hlater

theorem rolloversRebuild_perform (e : Engine) (op : Operation) :
    RolloversRebuild (e.perform op).actions := by
  cases op with
  | rebuild inputs => exact .of_rebuild e inputs
  | clear => exact .of_none fun a ha g now => by simp [List.mem_singleton.1 ha]
  | next inputs =>
    rw [perform]
    split
    · exact rolloversRebuild_handle _ inputs _
    · exact .of_none (by simp)
  | process inputs => exact rolloversRebuild_processPending e inputs
  | request | advanceTo | setClock => exact .of_none fun a ha => by cases ha

theorem rolloversRebuild_run (e : Engine) (ops : List Operation) :
    RolloversRebuild (e.run ops).actions := by
  induction ops generalizing e with
  | nil => exact .of_none fun a ha => by cases ha
  | cons op ops ih => exact (rolloversRebuild_perform e op).append (ih _)

end Engine

namespace Outcome

theorem length_fates (o : Outcome) (r : Registration) :
    (o.fates r).length = Moment.accounts ⟨o.engine, [], o.actions⟩ r := by
  have hsettled : (o.actions.filter (·.settles? = some r)).length =
      (o.actions.filterMap Action.settles?).count r := by
    rw [List.count_filterMap, List.countP_eq_length_filter]
    congr 2
    funext a
    rw [beq_eq_decide]
  simp only [fates, Moment.accounts, List.length_append, List.length_replicate, List.length_map,
    hsettled, List.count_nil]
  omega

theorem mem_fates_settled {o : Outcome} {r : Registration} {a : Action} :
    .settled a ∈ o.fates r ↔ a ∈ o.actions ∧ a.settles? = some r := by
  simp [fates, List.mem_replicate]

theorem mem_fates_cancelled {o : Outcome} {r : Registration} :
    .cancelled ∈ o.fates r ↔ r ∈ o.actions.flatMap Action.cancels := by
  simp [fates, List.mem_replicate, List.count_eq_zero]

/-- Fates other than waiting are never undone. -/
theorem mem_fates_of_append {o later : Outcome} {more : List Action}
    (hgrown : later.actions = o.actions ++ more) {r : Registration} {fate : Fate}
    (hmet : fate ∈ o.fates r) (hfinal : fate ≠ .live) : fate ∈ later.fates r := by
  cases fate with
  | live => exact absurd rfl hfinal
  | cancelled =>
    rw [mem_fates_cancelled] at hmet ⊢
    rw [hgrown, List.flatMap_append]
    exact List.mem_append_left _ hmet
  | settled a =>
    rw [mem_fates_settled] at hmet ⊢
    rw [hgrown]
    exact ⟨List.mem_append_left _ hmet.1, hmet.2⟩

end Outcome

namespace Engine

theorem fates_eq_singleton {config : SchedulerConfig} {clock : Instant} {e : Engine}
    (hcreated : Engine.new config clock = .ok e) (ops : List Operation) {r : Registration}
    (hmade : r ∈ (e.run ops).made) : ∃ fate, (e.run ops).fates r = [fate] := by
  obtain ⟨-, -, hbalanced, hnumbered, -⟩ := accounted_run hcreated ops
  have hdistinct : (e.run ops).made.Nodup := by
    apply List.Nodup.of_map Registration.seq
    rw [Outcome.made, hnumbered]
    exact List.nodup_range'
  have honce : (e.run ops).made.count r = 1 := List.count_eq_one_of_mem hdistinct hmade
  apply List.length_eq_one_iff.1
  rw [Outcome.length_fates, hbalanced]
  exact honce

/-- Registrations are numbered as they are made. Each has exactly one fate at any time, one that
fits its event, and keeps it for good once it does not wait any more. -/
theorem one_fate {config : SchedulerConfig} {clock : Instant} {e : Engine}
    (hcreated : Engine.new config clock = .ok e) (ops : List Operation) :
    (e.run ops).made.map Registration.seq = List.range' 1 (e.run ops).engine.registry.issued ∧
    ∀ r ∈ (e.run ops).made, ∃ fate, (e.run ops).fates r = [fate] ∧
      fate.Fits config.audio r ∧
      (∀ now, fate = .settled (.rolledOver r now) →
        HasRebuild (e.run ops).actions [.rolledOver r now] fun f => f.clock = now) ∧
      (fate = .settled (.superseded r) →
        HasRebuild (e.run ops).actions [] fun f => r ∈ f.claimDue.1) ∧
      (fate ≠ .live → ∀ more, (e.run (ops ++ more)).fates r = [fate]) ∧
      (fate = .cancelled → ∀ more file,
        (r, file) ∉ (e.run (ops ++ more)).actions.filterMap Action.delivery?) := by
  obtain ⟨-, -, -, hnumbered, hfits⟩ := accounted_run hcreated ops
  refine ⟨hnumbered, fun r hmade => ?_⟩
  obtain ⟨fate, honly⟩ := fates_eq_singleton hcreated ops hmade
  have hmet : fate ∈ (e.run ops).fates r := by rw [honly]; exact List.mem_singleton_self fate
  have hlasts : fate ≠ .live → ∀ more, (e.run (ops ++ more)).fates r = [fate] := by
    intro hfinal more
    have hgrown := e.actions_run_append ops more
    have hstill := Outcome.mem_fates_of_append hgrown hmet hfinal
    have hmade' : r ∈ (e.run (ops ++ more)).made := by
      rw [Outcome.made, hgrown, List.filterMap_append]
      exact List.mem_append_left _ hmade
    obtain ⟨other, honly'⟩ := fates_eq_singleton hcreated (ops ++ more) hmade'
    rw [honly', List.mem_singleton] at hstill
    rw [honly', hstill]
  have hrollovers := rolloversRebuild_run e ops
  refine ⟨fate, honly, ?_, ?_, ?_, hlasts, ?_⟩
  · cases fate with
    | live => exact .live
    | cancelled => exact .cancelled
    | settled a =>
      obtain ⟨hdone, hsettles⟩ := Outcome.mem_fates_settled.1 hmet
      exact hfits a hdone r hsettles
  · rintro now rfl
    exact hrollovers.ran r now (Outcome.mem_fates_settled.1 hmet).1
  · rintro rfl
    exact hrollovers.superseded r (Outcome.mem_fates_settled.1 hmet).1
  · rintro rfl more file hdelivered
    obtain ⟨a, hdone, hhands⟩ := List.mem_filterMap.1 hdelivered
    have hsettles : a.settles? = some r := by
      cases a <;> simp_all [Action.delivery?, Action.settles?]
    have hother : .settled a ∈ (e.run (ops ++ more)).fates r :=
      Outcome.mem_fates_settled.2 ⟨hdone, hsettles⟩
    rw [hlasts (by simp) more, List.mem_singleton] at hother
    cases hother

/-- An announcement is cancelled although its report waits, and then it is never played. -/
theorem one_fate_cancelled :
    ∃ e, Engine.new {} ⟨0, .utc⟩ = .ok e ∧ ∃ ops, ∃ r ∈ (e.run ops).made,
      (e.run ops).engine.fires = [r.fire] ∧ (e.run ops).fates r = [.cancelled] ∧
      ∀ more file, (r, file) ∉ (e.run (ops ++ more)).actions.filterMap Action.delivery? := by
  obtain ⟨e, hcreated⟩ : ∃ e, Engine.new {} ⟨0, .utc⟩ = .ok e := ⟨_, rfl⟩
  let ops : List Operation :=
    [.rebuild (.daily .maghrib ⟨1080, by decide⟩), .advanceTo ⟨64000000, .utc⟩, .clear]
  let r : Registration :=
    ⟨2, 2, .announcement .maghrib ⟨0⟩ ⟨1065, by decide⟩, ⟨63900000, .utc⟩⟩
  have hstart := (new_eq hcreated).2
  have hsecond : (e.run ops).made[1]? = some r := by rw [hstart]; cbv
  have hmade := List.mem_of_getElem? hsecond
  have hreported : (e.run ops).engine.fires = [r.fire] := by rw [hstart]; cbv
  have hgone : ((e.run ops).actions.flatMap Action.cancels)[0]? = some r := by rw [hstart]; cbv
  obtain ⟨-, heach⟩ := one_fate hcreated ops
  obtain ⟨fate, honly, -, -, -, -, hnever⟩ := heach r hmade
  have hmet : .cancelled ∈ (e.run ops).fates r :=
    Outcome.mem_fates_cancelled.2 (List.mem_of_getElem? hgone)
  rw [honly, List.mem_singleton] at hmet
  exact ⟨e, hcreated, ops, r, hmade, hreported, hmet ▸ honly, hnever hmet.symm⟩

end Engine

end Muezzin
