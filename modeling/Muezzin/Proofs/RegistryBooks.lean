import Mathlib.Data.List.Perm.Subperm
import Muezzin.Proofs.RegistryOps
import Muezzin.Proofs.ScheduleKeys

/-!
# The books of the registry

The registry, its timers and the queue of reports change at different moments, but they agree:
whoever is live has either a timer that waits or a report that waits, never both and never neither,
and every timer belongs to somebody who is live. Every operation of the registry keeps this
agreement. Since the keys of the live registrations are different and there are only eleven of
them, neither the registry nor its timers ever count more.
-/

namespace Muezzin

/-- The live registrations agree with the timers and with the reports that wait. -/
structure Registry.Consistent (r : Registry) (reports : List Fire) : Prop where
  keys_nodup : (r.live.map Registration.key).Nodup
  seqs_nodup : (r.live.map Registration.seq).Nodup
  timers_nodup : (r.live.map Registration.timer).Nodup
  seq_le : ∀ g ∈ r.live, g.seq ≤ r.issued
  timer_le : ∀ g ∈ r.live, g.timer ≤ r.timers.issued
  pending_nodup : r.timers.pending.Nodup
  reports_nodup : reports.Nodup
  report_le : ∀ report ∈ reports, report.seq ≤ r.issued
  owned : ∀ t ∈ r.timers.pending, ∃ g ∈ r.live, t = g.alarm
  armed_iff : ∀ g ∈ r.live, g.alarm ∈ r.timers.pending ↔ g.fire ∉ reports
  proper : ∀ g ∈ r.live, g.event.Proper

namespace Registry.Consistent

variable {r : Registry} {reports : List Fire}

theorem distinct (hbooks : r.Consistent reports) : r.live.Nodup :=
  .of_map _ hbooks.keys_nodup

theorem eq_of_fire_eq (hbooks : r.Consistent reports) {g h : Registration} (hg : g ∈ r.live)
    (hh : h ∈ r.live) (hsame : g.fire = h.fire) : g = h :=
  List.inj_on_of_nodup_map hbooks.seqs_nodup hg hh (congrArg Fire.seq hsame)

theorem eq_of_timer_eq (hbooks : r.Consistent reports) {g h : Registration} (hg : g ∈ r.live)
    (hh : h ∈ r.live) (hsame : g.timer = h.timer) : g = h :=
  List.inj_on_of_nodup_map hbooks.timers_nodup hg hh hsame

theorem eq_of_id_eq (hbooks : r.Consistent reports) {s t : Timer Fire}
    (hs : s ∈ r.timers.pending) (ht : t ∈ r.timers.pending) (hsame : s.id = t.id) : s = t := by
  obtain ⟨g, hg, rfl⟩ := hbooks.owned s hs
  obtain ⟨h, hh, rfl⟩ := hbooks.owned t ht
  rw [hbooks.eq_of_timer_eq hg hh hsame]

theorem length_live_le (hbooks : r.Consistent reports) : r.live.length ≤ 11 := by
  have hknown : r.live.map Registration.key ⊆ Event.keys := by
    intro key hkey
    obtain ⟨g, hg, rfl⟩ := List.mem_map.1 hkey
    exact (hbooks.proper g hg).key_mem
  have hbound := (List.subperm_of_subset hbooks.keys_nodup hknown).length_le
  rwa [List.length_map, Event.length_keys] at hbound

theorem nodup_map_alarm (hbooks : r.Consistent reports) : (r.live.map Registration.alarm).Nodup :=
  .of_map Timer.id (by rw [List.map_map]; exact hbooks.timers_nodup)

theorem length_pending_le (hbooks : r.Consistent reports) :
    r.timers.pending.length ≤ r.live.length := by
  have howned : r.timers.pending ⊆ r.live.map Registration.alarm := by
    intro t ht
    obtain ⟨g, hg, rfl⟩ := hbooks.owned t ht
    exact List.mem_map_of_mem hg
  have hbound := (List.subperm_of_subset hbooks.pending_nodup howned).length_le
  rwa [List.length_map] at hbound

theorem length_pending (hbooks : r.Consistent []) : r.timers.pending.length = r.live.length := by
  have hwaiting : r.live.map Registration.alarm ⊆ r.timers.pending := by
    intro t ht
    obtain ⟨g, hg, rfl⟩ := List.mem_map.1 ht
    exact (hbooks.armed_iff g hg).2 List.not_mem_nil
  have hbound := (List.subperm_of_subset hbooks.nodup_map_alarm hwaiting).length_le
  rw [List.length_map] at hbound
  exact Nat.le_antisymm hbooks.length_pending_le hbound

theorem empty (clock : Instant) : Registry.Consistent { timers := { clock } } [] where
  keys_nodup := .nil
  seqs_nodup := .nil
  timers_nodup := .nil
  seq_le := by simp
  timer_le := by simp
  pending_nodup := .nil
  reports_nodup := .nil
  report_le := by simp
  owned := by simp
  armed_iff := by simp
  proper := by simp

theorem setClock (hbooks : r.Consistent reports) (i : Instant) :
    (r.withTimers (r.timers.setClock i)).Consistent reports :=
  { hbooks with }

/-- A timer that waits may turn into a report at any time. -/
theorem report (hbooks : r.Consistent reports) {timer : Timer Fire}
    (hwaited : timer ∈ r.timers.pending) :
    (r.withTimers (r.timers.cancel timer.id)).Consistent (reports ++ [timer.payload]) := by
  obtain ⟨g, hg, rfl⟩ := hbooks.owned timer hwaited
  have hunreported : g.fire ∉ reports := (hbooks.armed_iff g hg).1 hwaited
  exact
    { keys_nodup := hbooks.keys_nodup
      seqs_nodup := hbooks.seqs_nodup
      timers_nodup := hbooks.timers_nodup
      seq_le := hbooks.seq_le
      timer_le := hbooks.timer_le
      pending_nodup := hbooks.pending_nodup.filter _
      reports_nodup := by
        rw [← List.concat_eq_append]
        exact hbooks.reports_nodup.concat hunreported
      report_le := by
        intro report h
        rcases List.mem_append.1 h with h | h
        · exact hbooks.report_le report h
        · rw [List.mem_singleton.1 h]
          exact hbooks.seq_le g hg
      owned := fun t ht => hbooks.owned t (List.mem_of_mem_filter ht)
      armed_iff := by
        intro h hh
        show h.alarm ∈ r.timers.pending.filter (·.id != g.timer) ↔ _
        rw [List.mem_filter, hbooks.armed_iff h hh, List.mem_append, List.mem_singleton]
        constructor
        · rintro ⟨hunreported, hother⟩ (hreported | hsame)
          · exact hunreported hreported
          · have : h = g := hbooks.eq_of_fire_eq hh hg hsame
            subst this
            simp [Registration.alarm] at hother
        · intro hneither
          refine ⟨fun hreported => hneither (.inl hreported), bne_iff_ne.2 fun hsame => ?_⟩
          have : h = g := hbooks.eq_of_timer_eq hh hg hsame
          exact hneither (.inr (congrArg Registration.fire this))
      proper := hbooks.proper }

theorem fire (hbooks : r.Consistent reports) {target : Instant} {timer : Timer Fire}
    {timers : Timeline Fire} (hpopped : r.timers.popDue? target = some (timer, timers)) :
    (r.withTimers timers).Consistent (reports ++ [timer.payload]) := by
  obtain ⟨hwaited, -, rfl⟩ := Timeline.mem_of_popDue? hpopped
  exact hbooks.report hwaited

theorem dropReport {report : Fire} (hbooks : r.Consistent (report :: reports))
    (hstale : ∀ g ∈ r.live, g.fire ≠ report) : r.Consistent reports :=
  { hbooks with
    reports_nodup := (List.nodup_cons.1 hbooks.reports_nodup).2
    report_le := fun other h => hbooks.report_le other (List.mem_cons_of_mem _ h)
    armed_iff := by
      intro g hg
      rw [hbooks.armed_iff g hg, List.mem_cons, not_or]
      exact ⟨And.right, fun h => ⟨hstale g hg, h⟩⟩ }

/-- A registration whose report is taken leaves the books together with it. -/
theorem claim {g : Registration} (hbooks : r.Consistent (g.fire :: reports)) (hg : g ∈ r.live) :
    (r.remove g).Consistent reports := by
  have hkept : (r.remove g).live.Sublist r.live := List.filter_sublist
  have hnoTimer : g.alarm ∉ r.timers.pending :=
    fun hwaits => (hbooks.armed_iff g hg).1 hwaits List.mem_cons_self
  exact
    { keys_nodup := hbooks.keys_nodup.sublist (hkept.map _)
      seqs_nodup := hbooks.seqs_nodup.sublist (hkept.map _)
      timers_nodup := hbooks.timers_nodup.sublist (hkept.map _)
      seq_le := fun h hh => hbooks.seq_le h (hkept.subset hh)
      timer_le := fun h hh => hbooks.timer_le h (hkept.subset hh)
      pending_nodup := hbooks.pending_nodup
      reports_nodup := (List.nodup_cons.1 hbooks.reports_nodup).2
      report_le := fun report h => hbooks.report_le report (List.mem_cons_of_mem _ h)
      owned := by
        intro t ht
        obtain ⟨h, hh, rfl⟩ := hbooks.owned t ht
        exact ⟨h, mem_remove.2 ⟨hh, fun hsame => hnoTimer (hsame ▸ ht)⟩, rfl⟩
      armed_iff := by
        intro h hh
        obtain ⟨hh, hother⟩ := mem_remove.1 hh
        have hdifferent : h.fire ≠ g.fire := fun hsame => hother (hbooks.eq_of_fire_eq hh hg hsame)
        show h.alarm ∈ r.timers.pending ↔ _
        rw [hbooks.armed_iff h hh, List.mem_cons, not_or]
        exact ⟨And.right, fun hunreported => ⟨hdifferent, hunreported⟩⟩
      proper := fun h hh => hbooks.proper h (hkept.subset hh) }

theorem dropAll (hbooks : r.Consistent reports) {gone : List Registration}
    (hlive : ∀ g ∈ gone, g ∈ r.live) : (r.dropAll gone).Consistent reports := by
  have hkept : (r.dropAll gone).live.Sublist r.live := by
    rw [dropAll_eq]
    exact List.filter_sublist
  have hwaiting : (r.dropAll gone).timers.pending.Sublist r.timers.pending := by
    rw [dropAll_eq]
    exact List.filter_sublist
  have hissued : (r.dropAll gone).issued = r.issued := by rw [dropAll_eq]
  have htimersIssued : (r.dropAll gone).timers.issued = r.timers.issued := by rw [dropAll_eq]
  exact
    { keys_nodup := hbooks.keys_nodup.sublist (hkept.map _)
      seqs_nodup := hbooks.seqs_nodup.sublist (hkept.map _)
      timers_nodup := hbooks.timers_nodup.sublist (hkept.map _)
      seq_le := fun h hh => hissued ▸ hbooks.seq_le h (hkept.subset hh)
      timer_le := fun h hh => htimersIssued ▸ hbooks.timer_le h (hkept.subset hh)
      pending_nodup := hbooks.pending_nodup.sublist hwaiting
      reports_nodup := hbooks.reports_nodup
      report_le := fun report h => hissued ▸ hbooks.report_le report h
      owned := by
        intro t ht
        obtain ⟨ht, hsurvives⟩ := mem_pending_dropAll.1 ht
        obtain ⟨h, hh, rfl⟩ := hbooks.owned t ht
        exact ⟨h, mem_live_dropAll.2 ⟨hh, fun hgone => hsurvives h hgone rfl⟩, rfl⟩
      armed_iff := by
        intro h hh
        obtain ⟨hh, hstays⟩ := mem_live_dropAll.1 hh
        rw [mem_pending_dropAll, ← hbooks.armed_iff h hh]
        refine ⟨And.left, fun hwaits => ⟨hwaits, fun g hg hsame => hstays ?_⟩⟩
        have : g = h := hbooks.eq_of_timer_eq (hlive g hg) hh hsame
        exact this ▸ hg
      proper := fun h hh => hbooks.proper h (hkept.subset hh) }

theorem takeDue (hbooks : r.Consistent reports) (now : Instant) :
    (r.takeDue now).2.Consistent reports :=
  hbooks.dropAll fun _ hg => (mem_takeDue.1 hg).1

theorem cancelAll (hbooks : r.Consistent reports) : r.cancelAll.2.Consistent reports :=
  hbooks.dropAll fun _ hg => mem_listing.1 hg

theorem enrol (hbooks : r.Consistent reports) {event : Event} (due : Instant)
    (hproper : event.Proper) (hfree : ∀ g ∈ r.live, g.key ≠ event.key) :
    (r.enrol (r.upcoming event due)).Consistent reports := by
  have hnewSeq : ∀ g ∈ r.live, g.seq ≠ r.issued + 1 := fun g hg hsame => by
    have := hbooks.seq_le g hg
    omega
  have hnewTimer : ∀ g ∈ r.live, g.timer ≠ r.timers.issued + 1 := fun g hg hsame => by
    have := hbooks.timer_le g hg
    omega
  have hunreported : (r.upcoming event due).fire ∉ reports := fun hreported => by
    have : r.issued + 1 ≤ r.issued := hbooks.report_le _ hreported
    omega
  have hunarmed : (r.upcoming event due).alarm ∉ r.timers.pending := by
    intro hwaits
    obtain ⟨g, hg, hsame⟩ := hbooks.owned _ hwaits
    exact hnewTimer g hg (congrArg Timer.id hsame).symm
  have hstillDistinct {β : Type} (f : Registration → β) (hold : (r.live.map f).Nodup)
      (hnew : ∀ g ∈ r.live, f g ≠ f (r.upcoming event due)) :
      ((r.live ++ [r.upcoming event due]).map f).Nodup := by
    rw [List.map_append, List.map_singleton, ← List.concat_eq_append]
    refine hold.concat fun h => ?_
    obtain ⟨g, hg, hsame⟩ := List.mem_map.1 h
    exact hnew g hg hsame
  exact
    { keys_nodup := hstillDistinct _ hbooks.keys_nodup hfree
      seqs_nodup := hstillDistinct _ hbooks.seqs_nodup hnewSeq
      timers_nodup := hstillDistinct _ hbooks.timers_nodup hnewTimer
      seq_le := by
        intro g hg
        rcases List.mem_append.1 hg with hg | hg
        · exact Nat.le_succ_of_le (hbooks.seq_le g hg)
        · rw [List.mem_singleton.1 hg]
          exact Nat.le_refl _
      timer_le := by
        intro g hg
        rcases List.mem_append.1 hg with hg | hg
        · exact Nat.le_succ_of_le (hbooks.timer_le g hg)
        · rw [List.mem_singleton.1 hg]
          exact Nat.le_refl _
      pending_nodup := by
        show (r.timers.pending ++ [_]).Nodup
        rw [← List.concat_eq_append]
        exact hbooks.pending_nodup.concat hunarmed
      reports_nodup := hbooks.reports_nodup
      report_le := fun report h => Nat.le_succ_of_le (hbooks.report_le report h)
      owned := by
        intro t ht
        rcases List.mem_append.1 ht with ht | ht
        · obtain ⟨g, hg, rfl⟩ := hbooks.owned t ht
          exact ⟨g, List.mem_append_left _ hg, rfl⟩
        · rw [List.mem_singleton.1 ht]
          exact ⟨_, List.mem_append_right _ List.mem_cons_self, rfl⟩
      armed_iff := by
        intro g hg
        show g.alarm ∈ r.timers.pending ++ [_] ↔ _
        rw [List.mem_append, List.mem_singleton]
        rcases List.mem_append.1 hg with hg | hg
        · rw [← hbooks.armed_iff g hg]
          refine ⟨fun h => h.resolve_right fun hsame => ?_, .inl⟩
          exact hnewTimer g hg (congrArg Timer.id hsame)
        · rw [List.mem_singleton.1 hg]
          exact iff_of_true (.inr rfl) hunreported
      proper := by
        intro g hg
        rcases List.mem_append.1 hg with hg | hg
        · exact hbooks.proper g hg
        · rw [List.mem_singleton.1 hg]
          exact hproper }

end Registry.Consistent

end Muezzin
