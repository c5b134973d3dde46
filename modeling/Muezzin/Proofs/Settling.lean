import Muezzin.Proofs.Rollovers

/-!
# The claims of a rebuild

What a claimed registration comes to depends on the inputs, the files, the clock and the last run
under its own key, and on nothing else. Settling it touches no other key. A rebuild claims live
registrations, whose keys are different, so each of them comes to what it would have come to alone,
in whatever order they are settled. Afterwards the rebuild settles nothing more.
-/

namespace Muezzin

namespace Debounce

theorem allows_congr {τ : Type} [Sub τ] [LE τ] [DecidableLE τ] [OfNat τ 60000]
    {d d' : Debounce τ} {key : String} (hsame : d'.lastRun? key = d.lastRun? key) (now : τ) :
    d'.allows key now = d.allows key now := by
  rw [allows, allows, hsame]

end Debounce

/-- Settling a claim leaves the memory of other keys alone. -/
theorem Settlement.lastRun?_of_ne {e : Engine} {inputs : Inputs} {r : Registration}
    {d : Debounce Int} {a : Action} (hsettled : Settlement e inputs r d a) {key : String}
    (hother : key ≠ r.key) :
    d.lastRun? key = e.debounce.lastRun? key := by
  cases hsettled with
  | handedOff | unvoiced | rolledOver => exact Debounce.lastRun?_stamp_of_ne _ hother _
  | suppressed | withdrawn | ignored | superseded => rfl

namespace Engine

/-- The engines agree in everything that the end of a claim under the key depends on. -/
structure SameOutlook (e f : Engine) (key : String) : Prop where
  audio : f.audio = e.audio
  clock : f.clock = e.clock
  lastRun : f.debounce.lastRun? key = e.debounce.lastRun? key

/-- Two outcomes with the same actions, which also remember the same of the key. -/
def SameEnd (o p : Outcome) (key : String) : Prop :=
  p.actions = o.actions ∧ p.engine.debounce.lastRun? key = o.engine.debounce.lastRun? key

theorem deliver_of_allows {e : Engine} {r : Registration}
    (hallowed : e.debounce.allows r.key e.clock.millis) :
    e.deliver r =
      ⟨{ e with debounce := e.debounce.stamp r.key e.clock.millis },
        [match e.audio.fileFor r.event with
          | some file => .handedOff r file e.clock
          | none => .unvoiced r]⟩ := by
  rw [deliver, Debounce.ask_of_allows hallowed]
  cases e.audio.fileFor r.event <;> rfl

theorem deliver_of_not_allows {e : Engine} {r : Registration}
    (hrefused : ¬ e.debounce.allows r.key e.clock.millis) : e.deliver r = e.suppress r := by
  rw [deliver, Debounce.ask_of_not_allows hrefused]
  rfl

theorem sameEnd_deliver {e f : Engine} {r : Registration} (hsame : SameOutlook e f r.key) :
    SameEnd (e.deliver r) (f.deliver r) r.key := by
  have hagree : f.debounce.allows r.key f.clock.millis =
      e.debounce.allows r.key e.clock.millis := by
    rw [hsame.clock, Debounce.allows_congr hsame.lastRun]
  by_cases hallowed : e.debounce.allows r.key e.clock.millis
  · rw [deliver_of_allows hallowed, deliver_of_allows (hagree.trans hallowed), hsame.audio,
      hsame.clock]
    refine ⟨rfl, ?_⟩
    rw [Debounce.lastRun?_stamp_self, Debounce.lastRun?_stamp_self]
  · rw [deliver_of_not_allows hallowed, deliver_of_not_allows (by rwa [hagree]), suppress, suppress,
      hsame.clock, hsame.lastRun]
    exact ⟨rfl, hsame.lastRun⟩

theorem sameEnd_notify {e f : Engine} (inputs : Inputs) {r : Registration}
    (hsame : SameOutlook e f r.key) :
    SameEnd (e.notify inputs r) (f.notify inputs r) r.key := by
  unfold notify
  split
  · exact ⟨rfl, hsame.lastRun⟩
  · split
    · exact ⟨rfl, hsame.lastRun⟩
    · exact sameEnd_deliver hsame
  · exact sameEnd_deliver hsame

theorem sameEnd_settleDue {e f : Engine} (inputs : Inputs) {r : Registration}
    (hsame : SameOutlook e f r.key) :
    SameEnd (settleDue inputs r e) (settleDue inputs r f) r.key := by
  unfold settleDue
  split
  · exact ⟨rfl, hsame.lastRun⟩
  · exact sameEnd_notify inputs hsame

theorem sameOutlook_settleDue (inputs : Inputs) (r : Registration) (e : Engine) {key : String}
    (hother : key ≠ r.key) : SameOutlook e (settleDue inputs r e).engine key := by
  obtain ⟨d, a, hsettled, -, houtcome⟩ := settleDue_settles e inputs r
  rw [houtcome]
  exact ⟨rfl, rfl, hsettled.lastRun?_of_ne hother⟩

theorem sameOutlook_settleAll {inputs : Inputs} {rs : List Registration} (e : Engine)
    {key : String} (hothers : key ∉ rs.map Registration.key) :
    SameOutlook e (settleAll inputs rs e).engine key := by
  induction rs generalizing e with
  | nil => exact ⟨rfl, rfl, rfl⟩
  | cons r rs ih =>
    obtain ⟨hother, hlater⟩ := List.ne_and_not_mem_of_not_mem_cons hothers
    have hfirst := sameOutlook_settleDue inputs r e hother
    have hrest := ih (settleDue inputs r e).engine hlater
    exact ⟨hrest.audio.trans hfirst.audio, hrest.clock.trans hfirst.clock,
      hrest.lastRun.trans hfirst.lastRun⟩

/-- Claims with different keys are settled as if each were the only one. -/
theorem actions_settleAll (inputs : Inputs) {rs : List Registration}
    (hdistinct : (rs.map Registration.key).Nodup) (e : Engine) :
    (settleAll inputs rs e).actions = rs.flatMap fun r => (settleDue inputs r e).actions := by
  induction rs generalizing e with
  | nil => rfl
  | cons r rs ih =>
    obtain ⟨hnew, hdistinct⟩ := List.nodup_cons.1 hdistinct
    have hfirst : (settleAll inputs (r :: rs) e).actions = (settleDue inputs r e).actions ++
        (settleAll inputs rs (settleDue inputs r e).engine).actions := rfl
    rw [hfirst, ih hdistinct, List.flatMap_cons]
    congr 1
    apply List.flatMap_congr
    intro g hg
    have hother : g.key ≠ r.key := fun hsame => hnew (hsame ▸ List.mem_map_of_mem hg)
    exact (sameEnd_settleDue inputs (sameOutlook_settleDue inputs r e hother)).1

theorem lastRun?_settleAll_of_mem (inputs : Inputs) {rs : List Registration}
    (hdistinct : (rs.map Registration.key).Nodup) (e : Engine) {r : Registration} (hr : r ∈ rs) :
    (settleAll inputs rs e).engine.debounce.lastRun? r.key =
      (settleDue inputs r e).engine.debounce.lastRun? r.key := by
  induction rs generalizing e with
  | nil => cases hr
  | cons g rs ih =>
    obtain ⟨hnew, hdistinct⟩ := List.nodup_cons.1 hdistinct
    have hfirst : (settleAll inputs (g :: rs) e).engine =
        (settleAll inputs rs (settleDue inputs g e).engine).engine := rfl
    rw [hfirst]
    rcases List.mem_cons.1 hr with rfl | hr
    · exact (sameOutlook_settleAll _ hnew).lastRun
    · have hother : r.key ≠ g.key := fun hsame => hnew (hsame ▸ List.mem_map_of_mem hr)
      rw [ih hdistinct _ hr]
      exact (sameEnd_settleDue inputs (sameOutlook_settleDue inputs g e hother)).2

theorem perm_claimFires (fires : List Fire) {r : Registry} (hdistinct : r.live.Nodup) :
    ((claimFires fires r).1 ++ (claimFires fires r).2.live).Perm r.live := by
  induction fires generalizing r with
  | nil => exact .refl _
  | cons report fires ih =>
    rcases r.takeFired_cases report with ⟨g, hlive, -, htaken⟩ | ⟨-, htaken⟩
    · rw [claimFires, htaken]
      have hrest := ih (r := r.remove g) (hdistinct.sublist List.filter_sublist)
      exact (hrest.cons g).trans (Registry.perm_remove hdistinct hlive).symm
    · rw [claimFires, htaken]
      exact ih hdistinct

theorem fire_mem_of_mem_claimFires {fires : List Fire} {registry : Registry} {r : Registration}
    (h : r ∈ (claimFires fires registry).1) : r.fire ∈ fires := by
  induction fires generalizing registry with
  | nil => cases h
  | cons report fires ih =>
    rcases registry.takeFired_cases report with ⟨g, -, rfl, htaken⟩ | ⟨-, htaken⟩
    · rw [claimFires, htaken] at h
      rcases List.mem_cons.1 h with rfl | h
      · exact List.mem_cons_self
      · exact List.mem_cons_of_mem _ (ih h)
    · rw [claimFires, htaken] at h
      exact List.mem_cons_of_mem _ (ih h)

variable {e : Engine}

theorem handleFire_of_live {reports : List Fire} (hbooks : e.registry.Consistent reports)
    {r : Registration} (hlive : r ∈ e.registry.live) (inputs : Inputs) :
    e.handleFire inputs r.fire =
      if r.event.kind = .rollover then
        rollOver { e with registry := e.registry.remove r } inputs r
      else notify { e with registry := e.registry.remove r } inputs r := by
  rcases e.registry.takeFired_cases r.fire with ⟨g, hg, hsame, htaken⟩ | ⟨hstale, -⟩
  · have : g = r := hbooks.eq_of_fire_eq hg hlive hsame
    subst this
    simp only [handleFire, htaken]
  · exact absurd rfl (hstale r hlive)

theorem perm_claimDue (hdistinct : e.registry.live.Nodup) :
    (e.claimDue.1 ++ e.claimDue.2.registry.live).Perm e.registry.live := by
  have hreported := perm_claimFires e.fires hdistinct
  have hoverdue := Registry.perm_takeDue (claimFires e.fires e.registry).2 e.clock
  refine ((List.mergeSort_perm _ _).append_right _).trans ?_
  rw [List.append_assoc]
  exact (hoverdue.append_left _).trans hreported

theorem nodup_map_key_claimDue {reports : List Fire} (hbooks : e.registry.Consistent reports) :
    (e.claimDue.1.map Registration.key).Nodup := by
  have hwhole := ((perm_claimDue hbooks.distinct).map Registration.key).nodup_iff.2
    hbooks.keys_nodup
  rw [List.map_append] at hwhole
  exact (List.nodup_append.1 hwhole).1

theorem mem_claimDue (hdistinct : e.registry.live.Nodup) {r : Registration}
    (hclaimed : r ∈ e.claimDue.1) :
    r ∈ e.registry.live ∧ (r.fire ∈ e.fires ∨ r.due ≤ e.clock) := by
  refine ⟨(perm_claimDue hdistinct).mem_iff.1 (List.mem_append_left _ hclaimed), ?_⟩
  rcases List.mem_append.1 ((List.mergeSort_perm _ _).mem_iff.1 hclaimed) with hreported | hoverdue
  · exact .inl (fire_mem_of_mem_claimFires hreported)
  · exact .inr (Registry.mem_takeDue.1 hoverdue).2

/-- An action of a rebuild that settles something settles one of its claims, and it is what that
claim comes to by itself. -/
theorem settleDue_of_mem_actions_rebuild {reports : List Fire}
    (hbooks : e.registry.Consistent reports) {inputs : Inputs} {a : Action} {r : Registration}
    (hdone : a ∈ (e.rebuild inputs).actions) (hsettles : a.settles? = some r) :
    r ∈ e.claimDue.1 ∧ (settleDue inputs r e.claimDue.2).actions = [a] := by
  obtain ⟨later, hactions, hsilent⟩ := actions_rebuild e inputs
  rw [hactions] at hdone
  rcases List.mem_append.1 hdone with hdone | hdone
  · rw [deliverDue, actions_settleAll inputs (nodup_map_key_claimDue hbooks)] at hdone
    obtain ⟨g, hg, hdone⟩ := List.mem_flatMap.1 hdone
    obtain ⟨d, b, hsettled, -, houtcome⟩ := settleDue_settles e.claimDue.2 inputs g
    rw [houtcome] at hdone
    have : a = b := List.mem_singleton.1 hdone
    subst this
    have : g = r := Option.some.inj (hsettled.settles_eq.symm.trans hsettles)
    subst this
    exact ⟨hg, by rw [houtcome]⟩
  · rw [hsilent a hdone] at hsettles
    cases hsettles

/-- What a rebuild remembers of a claimed key. -/
theorem lastRun?_rebuild_of_mem {reports : List Fire} (hbooks : e.registry.Consistent reports)
    (inputs : Inputs) {r : Registration} (hclaimed : r ∈ e.claimDue.1) :
    (e.rebuild inputs).engine.debounce.lastRun? r.key =
      (settleDue inputs r e.claimDue.2).engine.debounce.lastRun? r.key := by
  rw [debounce_rebuild]
  exact lastRun?_settleAll_of_mem inputs (nodup_map_key_claimDue hbooks) _ hclaimed

theorem sameOutlook_claimDue (e : Engine) (key : String) : SameOutlook e e.claimDue.2 key :=
  ⟨rfl, clock_claimDue e, rfl⟩

theorem lastRun?_rebuild_of_notMem {key : String}
    (hunclaimed : key ∉ e.claimDue.1.map Registration.key) (inputs : Inputs) :
    (e.rebuild inputs).engine.debounce.lastRun? key = e.debounce.lastRun? key := by
  rw [debounce_rebuild]
  exact (sameOutlook_settleAll e.claimDue.2 hunclaimed).lastRun

end Engine

end Muezzin
