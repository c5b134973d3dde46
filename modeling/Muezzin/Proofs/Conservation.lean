import Muezzin.Proofs.Advance
import Muezzin.Proofs.RegistryOps

/-!
# A registry loses no number and gives none out twice

A registry by itself, without an engine, may be asked for anything: events under any key and for any
instant, claims that no timer has reported, cancellations of what is not there. What it hands out is
entered in a ledger, and every entry that was made is at every moment live, claimed or dropped. A
timer is taken off the timeline together with its registration, except when a report claims it, so
what was dropped or swept does not fire any more.
-/

namespace Muezzin

open scoped List

namespace Registry

def new (clock : Instant) : Registry :=
  { timers := { clock } }

/-- What can be asked of a registry and its timers. -/
inductive Move where
  | register (event : Event) (due : Instant)
  | takeFired (fire : Fire)
  | takeDue (now : Instant)
  | cancel (key : String)
  | cancelAll
  | advanceTo (target : Instant)
  | setClock (i : Instant)

/-- What has become of registrations and timers, in the order in which it happened. -/
structure Ledger where
  made : List Registration := []
  reported : List Registration := []
  swept : List Registration := []
  /-- Replaced under the same key, or cancelled. -/
  dropped : List Registration := []
  fired : List (Timer Fire) := []

namespace Ledger

def claimed (l : Ledger) : List Registration :=
  l.reported ++ l.swept

def stopped (l : Ledger) : List Registration :=
  l.swept ++ l.dropped

def add (l m : Ledger) : Ledger where
  made := l.made ++ m.made
  reported := l.reported ++ m.reported
  swept := l.swept ++ m.swept
  dropped := l.dropped ++ m.dropped
  fired := l.fired ++ m.fired

theorem add_empty (l : Ledger) : l.add {} = l := by
  simp [add]

theorem add_assoc (l m n : Ledger) : (l.add m).add n = l.add (m.add n) := by
  simp [add]

theorem mem_stopped_add {l m : Ledger} {g : Registration} :
    g ∈ (l.add m).stopped ↔ g ∈ l.stopped ∨ g ∈ m.stopped := by
  simp only [stopped, add, List.mem_append]
  tauto

end Ledger

/-- Makes one move and gives what is to be entered for it. -/
def perform (r : Registry) : Move → Registry × Ledger
  | .register event due =>
    let old := (r.find? event.key).toList
    let (g, r) := r.register event due
    (r, { made := [g], dropped := old })
  | .takeFired fire =>
    let (g, r) := r.takeFired fire
    (r, { reported := g.toList })
  | .takeDue now =>
    let (gs, r) := r.takeDue now
    (r, { swept := gs })
  | .cancel key => ((r.cancel key).2, { dropped := (r.find? key).toList })
  | .cancelAll =>
    let (gs, r) := r.cancelAll
    (r, { dropped := gs })
  | .advanceTo target =>
    let (fired, timers) := r.timers.advanceTo target
    (r.withTimers timers, { fired })
  | .setClock i => (r.withTimers (r.timers.setClock i), {})

def run (r : Registry) : List Move → Registry × Ledger
  | [] => (r, {})
  | move :: moves =>
    let (s, entry) := r.perform move
    let (last, rest) := s.run moves
    (last, entry.add rest)

theorem cancel_of_free {r : Registry} {key : String} (hfree : ∀ g ∈ r.live, g.key ≠ key) :
    r.cancel key = (false, r) := by
  have hmissing : r.find? key = none :=
    List.find?_eq_none.2 fun g hg => by simpa using hfree g hg
  rw [cancel, hmissing]

/-- Whatever fires has waited. -/
theorem waits_of_fires {r : Registry} {move : Move} {t : Timer Fire}
    (hfires : t ∈ (r.perform move).2.fired) : t ∈ r.timers.pending := by
  cases move with
  | advanceTo target => exact ((r.timers.advanceTo_spec target).2 t hfires).1
  | register | takeFired | takeDue | cancel | cancelAll | setClock => cases hfires

/-- Every registration that was made is in one account, and every timer that waits belongs to one
that was made and not stopped. -/
structure Accounts (r : Registry) (l : Ledger) : Prop where
  keys_nodup : (r.live.map Registration.key).Nodup
  seqs : l.made.map Registration.seq = List.range' 1 r.issued
  timers : l.made.map Registration.timer = List.range' 1 r.timers.issued
  balanced : r.live ++ (l.claimed ++ l.dropped) ~ l.made
  owned : ∀ t ∈ r.timers.pending, ∃ g ∈ l.made, t = g.alarm
  stopped : ∀ g ∈ l.stopped, g.alarm ∉ r.timers.pending

namespace Accounts

variable {r : Registry} {l : Ledger}

theorem new (clock : Instant) : (Registry.new clock).Accounts {} where
  keys_nodup := .nil
  seqs := rfl
  timers := rfl
  balanced := .nil
  owned := by simp [Registry.new]
  stopped := by simp [Ledger.stopped]

theorem distinct (haccounts : r.Accounts l) : r.live.Nodup :=
  .of_map _ haccounts.keys_nodup

theorem seqs_nodup (haccounts : r.Accounts l) : (l.made.map Registration.seq).Nodup := by
  rw [haccounts.seqs]
  exact List.nodup_range'

theorem eq_of_timer_eq (haccounts : r.Accounts l) {g h : Registration} (hg : g ∈ l.made)
    (hh : h ∈ l.made) (hsame : g.timer = h.timer) : g = h := by
  refine List.inj_on_of_nodup_map ?_ hg hh hsame
  rw [haccounts.timers]
  exact List.nodup_range'

theorem eq_of_seq_eq (haccounts : r.Accounts l) {g h : Registration} (hg : g ∈ l.made)
    (hh : h ∈ l.made) (hsame : g.seq = h.seq) : g = h :=
  List.inj_on_of_nodup_map haccounts.seqs_nodup hg hh hsame

theorem made_of_stopped (haccounts : r.Accounts l) {g : Registration} (hg : g ∈ l.stopped) :
    g ∈ l.made := by
  refine haccounts.balanced.subset ?_
  simp only [Ledger.stopped, Ledger.claimed, List.mem_append] at hg ⊢
  tauto

theorem ne_of_stopped (haccounts : r.Accounts l) {g : Registration} (hg : g ∈ l.stopped)
    {t : Timer Fire} (hwaits : t ∈ r.timers.pending) : t.id ≠ g.timer ∧ t.payload.seq ≠ g.seq := by
  obtain ⟨owner, howner, rfl⟩ := haccounts.owned t hwaits
  have hother : owner ≠ g := by
    rintro rfl
    exact haccounts.stopped owner hg hwaits
  have hmade := haccounts.made_of_stopped hg
  exact ⟨fun hsame => hother (haccounts.eq_of_timer_eq howner hmade hsame),
    fun hsame => hother (haccounts.eq_of_seq_eq howner hmade hsame)⟩

/-- What leaves the registry is entered among the ended, and among the stopped only if its timer
is gone as well. -/
theorem leave (haccounts : r.Accounts l) {s : Registry} {m : Ledger} (gs : List Registration)
    (hkept : s.live.Sublist r.live) (hmoved : gs ++ s.live ~ r.live)
    (hissued : s.issued = r.issued ∧ s.timers.issued = r.timers.issued)
    (hwaited : ∀ t ∈ s.timers.pending, t ∈ r.timers.pending) (hmade : m.made = l.made)
    (hended : m.claimed ++ m.dropped ~ gs ++ (l.claimed ++ l.dropped))
    (hstopped : ∀ g ∈ m.stopped, g ∈ l.stopped ∨ g.alarm ∉ s.timers.pending) : s.Accounts m where
  keys_nodup := haccounts.keys_nodup.sublist (hkept.map _)
  seqs := by
    rw [hmade, hissued.1]
    exact haccounts.seqs
  timers := by
    rw [hmade, hissued.2]
    exact haccounts.timers
  balanced := by
    rw [hmade]
    calc s.live ++ (m.claimed ++ m.dropped)
      _ ~ s.live ++ (gs ++ (l.claimed ++ l.dropped)) := hended.append_left _
      _ ~ gs ++ s.live ++ (l.claimed ++ l.dropped) := by
        rw [← List.append_assoc]
        exact List.perm_append_comm.append_right _
      _ ~ r.live ++ (l.claimed ++ l.dropped) := hmoved.append_right _
      _ ~ l.made := haccounts.balanced
  owned t ht := by
    rw [hmade]
    exact haccounts.owned t (hwaited t ht)
  stopped g hg := (hstopped g hg).elim (fun hold hwaits =>
    haccounts.stopped g hold (hwaited _ hwaits)) id

/-- Registrations leave the registry together with their timers, whatever they are entered as. -/
theorem dropAll (haccounts : r.Accounts l) {gs : List Registration} {m : Ledger}
    (hmoved : gs ++ (r.dropAll gs).live ~ r.live) (hmade : m.made = l.made)
    (hended : m.claimed ++ m.dropped ~ gs ++ (l.claimed ++ l.dropped))
    (hstopped : ∀ g ∈ m.stopped, g ∈ l.stopped ∨ g ∈ gs) : (r.dropAll gs).Accounts m := by
  have hkept : (r.dropAll gs).live.Sublist r.live := by
    rw [dropAll_eq]
    exact List.filter_sublist
  have hissued : (r.dropAll gs).issued = r.issued ∧
      (r.dropAll gs).timers.issued = r.timers.issued := by
    rw [dropAll_eq]
    exact ⟨rfl, rfl⟩
  refine haccounts.leave gs hkept hmoved hissued (fun t ht => (mem_pending_dropAll.1 ht).1) hmade
    hended ?_
  intro g hg
  refine (hstopped g hg).imp_right fun hgone hwaits => ?_
  exact (mem_pending_dropAll.1 hwaits).2 g hgone rfl

theorem drops (haccounts : r.Accounts l) (gs : List Registration)
    (hmoved : gs ++ (r.dropAll gs).live ~ r.live) :
    (r.dropAll gs).Accounts (l.add { dropped := gs }) := by
  refine haccounts.dropAll hmoved (List.append_nil _) ?_ fun g hg => Ledger.mem_stopped_add.1 hg
  refine List.perm_iff_count.2 fun g => ?_
  simp only [Ledger.claimed, Ledger.add, List.append_nil, List.count_append]
  omega

theorem sweeps (haccounts : r.Accounts l) {gs : List Registration}
    (hmoved : gs ++ (r.dropAll gs).live ~ r.live) :
    (r.dropAll gs).Accounts (l.add { swept := gs }) := by
  refine haccounts.dropAll hmoved (List.append_nil _) ?_ fun g hg => ?_
  · refine List.perm_iff_count.2 fun g => ?_
    simp only [Ledger.claimed, Ledger.add, List.append_nil, List.count_append]
    omega
  · refine (Ledger.mem_stopped_add.1 hg).imp_right fun hnew => ?_
    exact (List.mem_append.1 hnew).resolve_right List.not_mem_nil

theorem cancel (haccounts : r.Accounts l) (key : String) :
    (r.cancel key).2.Accounts (l.add { dropped := (r.find? key).toList }) := by
  cases hfound : r.find? key with
  | none =>
    rw [Registry.cancel, hfound]
    exact l.add_empty.symm ▸ haccounts
  | some old =>
    rw [Registry.cancel, hfound]
    have hmoved := perm_remove haccounts.distinct (List.mem_of_find?_eq_some hfound)
    exact haccounts.drops [old] hmoved.symm

theorem free_cancel (haccounts : r.Accounts l) (key : String) :
    ∀ g ∈ (r.cancel key).2.live, g.key ≠ key := by
  intro g hg hsame
  unfold Registry.cancel at hg
  split at hg
  · next old hfound =>
    obtain ⟨hlive, hother⟩ := mem_remove.1 hg
    have holdKey : old.key = key := by simpa using List.find?_some hfound
    exact hother (List.inj_on_of_nodup_map haccounts.keys_nodup hlive
      (List.mem_of_find?_eq_some hfound) (hsame.trans holdKey.symm))
  · next hmissing =>
    simpa [hsame] using List.find?_eq_none.1 hmissing g hg

theorem enrol (haccounts : r.Accounts l) {event : Event} (due : Instant)
    (hfree : ∀ g ∈ r.live, g.key ≠ event.key) :
    (r.enrol (r.upcoming event due)).Accounts (l.add { made := [r.upcoming event due] }) := by
  let new := r.upcoming event due
  have hlater : ∀ g ∈ l.stopped, g.alarm ≠ new.alarm := by
    intro g hg hsame
    have hnumber : g.timer ∈ l.made.map Registration.timer :=
      List.mem_map_of_mem (haccounts.made_of_stopped hg)
    have htaken : g.timer = r.timers.issued + 1 := congrArg Timer.id hsame
    rw [haccounts.timers, List.mem_range'_1] at hnumber
    omega
  refine ⟨?_, ?_, ?_, ?_, fun t ht => ?_, fun g hg => ?_⟩
  · show ((r.live ++ [new]).map Registration.key).Nodup
    rw [List.map_append, List.map_singleton, ← List.concat_eq_append]
    refine haccounts.keys_nodup.concat fun htaken => ?_
    obtain ⟨g, hg, hsame⟩ := List.mem_map.1 htaken
    exact hfree g hg hsame
  · show (l.made ++ [new]).map Registration.seq = List.range' 1 (r.issued + 1)
    rw [List.map_append, haccounts.seqs, List.range'_1_concat, Nat.add_comm 1]
    rfl
  · show (l.made ++ [new]).map Registration.timer = List.range' 1 (r.timers.issued + 1)
    rw [List.map_append, haccounts.timers, List.range'_1_concat, Nat.add_comm 1]
    rfl
  · refine List.perm_iff_count.2 fun g => ?_
    have hbefore := haccounts.balanced.count_eq g
    simp only [Registry.enrol, Ledger.claimed, Ledger.add, List.append_nil,
      List.count_append] at hbefore ⊢
    omega
  · rcases List.mem_append.1 ht with ht | ht
    · obtain ⟨g, hg, rfl⟩ := haccounts.owned t ht
      exact ⟨g, List.mem_append_left _ hg, rfl⟩
    · exact ⟨new, List.mem_append_right _ List.mem_cons_self, List.mem_singleton.1 ht⟩
  · have hold : g ∈ l.stopped := (Ledger.mem_stopped_add.1 hg).resolve_right List.not_mem_nil
    intro hwaits
    rcases List.mem_append.1 hwaits with hwaits | hwaits
    · exact haccounts.stopped g hold hwaits
    · exact hlater g hold (List.mem_singleton.1 hwaits)

theorem register (haccounts : r.Accounts l) (event : Event) (due : Instant) :
    (r.register event due).2.Accounts
      (l.add { made := [(r.register event due).1], dropped := (r.find? event.key).toList }) := by
  have hfree := haccounts.free_cancel event.key
  have hagain : r.register event due = (r.cancel event.key).2.register event due := by
    simp only [Registry.register, cancel_of_free hfree]
  have hentered := (haccounts.cancel event.key).enrol due hfree
  rw [hagain, register_of_free due hfree]
  rw [Ledger.add_assoc] at hentered
  simpa only [Ledger.add, List.nil_append, List.append_nil] using hentered

theorem takeFired (haccounts : r.Accounts l) (fire : Fire) :
    (r.takeFired fire).2.Accounts (l.add { reported := (r.takeFired fire).1.toList }) := by
  rcases r.takeFired_cases fire with ⟨g, hlive, -, htaken⟩ | ⟨-, htaken⟩
  · rw [htaken]
    refine haccounts.leave [g] List.filter_sublist
      (perm_remove haccounts.distinct hlive).symm ⟨rfl, rfl⟩ (fun _ => id) (List.append_nil _) ?_
      fun h hh => .inl ?_
    · refine List.perm_iff_count.2 fun h => ?_
      simp only [Ledger.claimed, Ledger.add, List.append_nil, List.count_append, Option.toList]
      omega
    · exact (Ledger.mem_stopped_add.1 hh).resolve_right List.not_mem_nil
  · rw [htaken]
    exact l.add_empty.symm ▸ haccounts

/-- Time takes timers off the timeline and does nothing else. -/
theorem withTimers (haccounts : r.Accounts l) (timers : Timeline Fire)
    (hissued : timers.issued = r.timers.issued)
    (hwaited : ∀ t ∈ timers.pending, t ∈ r.timers.pending) (fired : List (Timer Fire)) :
    (r.withTimers timers).Accounts (l.add { fired }) := by
  refine haccounts.leave [] (List.Sublist.refl _) (.refl _) ⟨rfl, hissued⟩ hwaited
    (List.append_nil _) ?_ fun g hg => .inl ?_
  · simp only [Ledger.claimed, Ledger.add, List.append_nil, List.nil_append]
    exact .refl _
  · exact (Ledger.mem_stopped_add.1 hg).resolve_right List.not_mem_nil

theorem perform (haccounts : r.Accounts l) (move : Move) :
    (r.perform move).1.Accounts (l.add (r.perform move).2) := by
  cases move with
  | register event due => exact haccounts.register event due
  | takeFired fire => exact haccounts.takeFired fire
  | takeDue now => exact haccounts.sweeps (perm_takeDue r now)
  | cancel key => exact haccounts.cancel key
  | cancelAll =>
    have hgone : r.listing ++ r.cancelAll.2.live ~ r.live := by
      rw [live_cancelAll, List.append_nil]
      exact perm_listing r
    exact haccounts.drops _ hgone
  | advanceTo target =>
    obtain ⟨hissued, hwaited⟩ := r.timers.pending_advanceTo target
    exact haccounts.withTimers _ hissued hwaited _
  | setClock i => exact haccounts.withTimers (r.timers.setClock i) rfl (fun _ => id) []

theorem run (haccounts : r.Accounts l) (moves : List Move) :
    (r.run moves).1.Accounts (l.add (r.run moves).2) := by
  induction moves generalizing r l with
  | nil => exact l.add_empty.symm ▸ haccounts
  | cons move moves ih =>
    have hrest := ih (haccounts.perform move)
    rwa [Ledger.add_assoc] at hrest

/-- A timer that was stopped does not fire, whatever is done later. -/
theorem stays_stopped (haccounts : r.Accounts l) {g : Registration} (hg : g ∈ l.stopped)
    (moves : List Move) :
    ∀ t ∈ (r.run moves).2.fired, t.id ≠ g.timer ∧ t.payload.seq ≠ g.seq := by
  induction moves generalizing r l with
  | nil => simp [Registry.run]
  | cons move moves ih =>
    intro t ht
    rcases List.mem_append.1 ht with hnow | hlater
    · exact haccounts.ne_of_stopped hg (waits_of_fires hnow)
    · exact ih (haccounts.perform move) (Ledger.mem_stopped_add.2 (.inl hg)) t hlater

theorem alarm_of_fired (haccounts : r.Accounts l) (moves : List Move) :
    ∀ t ∈ (r.run moves).2.fired, ∃ g ∈ (l.add (r.run moves).2).made, t = g.alarm := by
  induction moves generalizing r l with
  | nil => simp [Registry.run]
  | cons move moves ih =>
    intro t ht
    rcases List.mem_append.1 ht with hnow | hlater
    · obtain ⟨g, hmade, harmed⟩ := haccounts.owned t (waits_of_fires hnow)
      exact ⟨g, List.mem_append_left _ hmade, harmed⟩
    · obtain ⟨g, hmade, harmed⟩ := ih (haccounts.perform move) t hlater
      rw [Ledger.add_assoc] at hmade
      exact ⟨g, hmade, harmed⟩

/-- A number that was given out has one account and is entered there once. -/
theorem count_seq (haccounts : r.Accounts l) {n : Nat} (hgiven : n ∈ l.made.map Registration.seq) :
    (r.live.map Registration.seq).count n + (l.claimed.map Registration.seq).count n +
      (l.dropped.map Registration.seq).count n = 1 := by
  have hbalance := (haccounts.balanced.map Registration.seq).count_eq n
  simp only [List.map_append, List.count_append] at hbalance
  rw [List.count_eq_one_of_mem haccounts.seqs_nodup hgiven] at hbalance
  omega

theorem size (haccounts : r.Accounts l) :
    r.size + l.claimed.length + l.dropped.length = l.made.length := by
  have hbalance := haccounts.balanced.length_eq
  simp only [List.length_append] at hbalance
  simp only [Registry.size]
  omega

/-- A report claims the live registration of its key, if that has the number of the report. -/
theorem takeFired_iff (haccounts : r.Accounts l) {key : String} {seq : Nat} {g : Registration} :
    (r.takeFired ⟨key, seq⟩).1 = some g ↔ r.find? key = some g ∧ g.seq = seq := by
  constructor
  · intro hclaimed
    rcases r.takeFired_cases ⟨key, seq⟩ with ⟨h, hlisted, hsame, htaken⟩ | ⟨-, htaken⟩
    · rw [htaken] at hclaimed
      cases hclaimed
      cases hsame
      exact ⟨find?_eq_some haccounts.keys_nodup hlisted, rfl⟩
    · rw [htaken] at hclaimed
      cases hclaimed
  · rintro ⟨hfound, rfl⟩
    have hlisted := List.mem_of_find?_eq_some hfound
    obtain rfl : g.key = key := by simpa using List.find?_some hfound
    rcases r.takeFired_cases ⟨g.key, g.seq⟩ with ⟨h, hlive, hsame, htaken⟩ | ⟨hother, -⟩
    · have hsameKey : h.key = g.key := congrArg Fire.key hsame
      rw [htaken, List.inj_on_of_nodup_map haccounts.keys_nodup hlive hlisted hsameKey]
    · exact absurd rfl (hother g hlisted)

end Accounts

theorem accounts_run (clock : Instant) (moves : List Move) :
    ((new clock).run moves).1.Accounts ((new clock).run moves).2 :=
  (Accounts.new clock).run moves

/-- After any moves, and before any others: the numbers given out increase, each of them is live,
claimed or dropped and only once, the size is what remains of them, a report claims the live
registration of its key if that has its number and otherwise changes nothing, the timer that made a
report is that of the registration it claims, and no timer fires that was stopped before. -/
theorem registrations_conserved (clock : Instant) (before after : List Move) :
    let r := ((new clock).run before).1
    let l := ((new clock).run before).2
    (l.made.map Registration.seq).Pairwise (· < ·) ∧
      (∀ n ∈ l.made.map Registration.seq,
        (r.live.map Registration.seq).count n + (l.claimed.map Registration.seq).count n +
          (l.dropped.map Registration.seq).count n = 1) ∧
      r.size + l.claimed.length + l.dropped.length = l.made.length ∧
      (∀ key seq g, (r.takeFired ⟨key, seq⟩).1 = some g ↔ r.find? key = some g ∧ g.seq = seq) ∧
      (∀ fire, (r.takeFired fire).1 = none → (r.takeFired fire).2 = r) ∧
      (∀ t ∈ l.fired, ∀ g, (r.takeFired t.payload).1 = some g → t = g.alarm) ∧
      ∀ g ∈ l.stopped, ∀ t ∈ (r.run after).2.fired, t.id ≠ g.timer ∧ t.payload.seq ≠ g.seq := by
  intro r l
  have haccounts : r.Accounts l := accounts_run clock before
  refine ⟨?_, fun n => haccounts.count_seq, haccounts.size, fun _ _ _ => haccounts.takeFired_iff,
    fun fire hmissing => ?_, fun t ht g hclaimed => ?_,
    fun g hg => haccounts.stays_stopped hg after⟩
  · rw [haccounts.seqs]
    exact List.pairwise_lt_range'
  · rcases r.takeFired_cases fire with ⟨g, -, -, htaken⟩ | ⟨-, htaken⟩
    · rw [htaken] at hmissing
      cases hmissing
    · rw [htaken]
  · obtain ⟨owner, hmade, rfl⟩ := (Accounts.new clock).alarm_of_fired before t ht
    obtain ⟨hfound, hsame⟩ := haccounts.takeFired_iff.1 hclaimed
    have hmadeToo : g ∈ l.made :=
      haccounts.balanced.subset (List.mem_append_left _ (List.mem_of_find?_eq_some hfound))
    rw [haccounts.eq_of_seq_eq hmadeToo hmade hsame]

/-- One timer has been replaced when the other fires. -/
theorem registrations_conserved_replaced :
    ∃ before after g t, g ∈ ((new ⟨0, .utc⟩).run before).2.stopped ∧
      t ∈ (((new ⟨0, .utc⟩).run before).1.run after).2.fired ∧
      t.id ≠ g.timer ∧ t.payload.seq ≠ g.seq := by
  let event : Event := .azan .maghrib ⟨0⟩ ⟨1080, by decide⟩
  let before : List Move := [.register event ⟨5, .utc⟩, .register event ⟨7, .utc⟩]
  let r := ((new ⟨0, .utc⟩).run before).1
  let g : Registration := ⟨1, 1, event, ⟨5, .utc⟩⟩
  let t : Timer Fire := ⟨2, ⟨7, .utc⟩, ⟨event.key, 2⟩⟩
  have hstopped : ((new ⟨0, .utc⟩).run before).2.stopped = [g] := rfl
  have hg : g ∈ ((new ⟨0, .utc⟩).run before).2.stopped := by simp [hstopped]
  have hpopped : r.timers.popDue? ⟨9, .utc⟩ = some (t, r.timers.cancel 2) := rfl
  let after : List Move := [.advanceTo ⟨9, .utc⟩]
  have ht : t ∈ (r.run after).2.fired := by
    refine List.mem_append_left _ ?_
    show t ∈ (r.timers.advanceTo ⟨9, .utc⟩).1
    rw [Timeline.advanceTo_of_some hpopped]
    exact List.mem_cons_self
  obtain ⟨-, -, -, -, -, -, hstays⟩ := registrations_conserved ⟨0, .utc⟩ before after
  exact ⟨before, after, g, t, hg, ht, hstays g hg t ht⟩

end Registry

end Muezzin
