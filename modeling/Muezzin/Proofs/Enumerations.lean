import Muezzin.Proofs.ByteOrder
import Muezzin.Proofs.Conservation

/-!
# The registry shows nothing of the order in which it is kept

A registry may keep its registrations in any order. What it lists, claims and cancels is the same
for every order: deadlines, and the bytes of the keys where deadlines are equal, put registrations
under different keys in strict order, and a list has one arrangement in a strict order. The claims
up to an instant are the beginning of the list of what waits, and the rest of it is the list of what
goes on waiting.
-/

namespace Muezzin

open scoped List

namespace Registration

/-- The earlier deadline comes first, and for equal ones the key with the lesser bytes. -/
def Before (a b : Registration) : Prop :=
  a.due < b.due ∨ a.due.millis = b.due.millis ∧ Text.bytes a.key < Text.bytes b.key

instance (a b : Registration) : Decidable (a.Before b) :=
  inferInstanceAs (Decidable (_ ∨ _))

variable {a b : Registration} {gs hs : List Registration}

theorem Before.asymm (hfirst : a.Before b) : ¬ b.Before a := by
  rintro (hearlier | ⟨hsame, hlesser⟩)
  · rcases hfirst with hlater | ⟨hsame, -⟩
    · exact Int.lt_asymm hearlier hlater
    · exact absurd hsame.symm (Int.ne_of_lt hearlier)
  · rcases hfirst with hlater | ⟨-, hgreater⟩
    · exact absurd hsame.symm (Int.ne_of_lt hlater)
    · exact List.lt_asymm hlesser hgreater

theorem precedes_iff :
    a.precedes b ↔ a.due < b.due ∨ a.due.millis = b.due.millis ∧ a.key ≤ b.key := by
  simp [precedes]

theorem precedes_trans (a b c : Registration) (hfirst : a.precedes b) (hsecond : b.precedes c) :
    a.precedes c := by
  rw [precedes_iff] at *
  rcases hfirst with hearly | ⟨hsame, hkey⟩ <;> rcases hsecond with hlate | ⟨hsame', hkey'⟩
  · exact .inl (Int.lt_trans hearly hlate)
  · exact .inl (Int.lt_of_lt_of_le hearly (Int.le_of_eq hsame'))
  · exact .inl (Int.lt_of_le_of_lt (Int.le_of_eq hsame) hlate)
  · exact .inr ⟨hsame.trans hsame', le_trans hkey hkey'⟩

theorem precedes_total (a b : Registration) : a.precedes b || b.precedes a := by
  rw [Bool.or_eq_true, precedes_iff, precedes_iff]
  rcases Int.lt_trichotomy a.due.millis b.due.millis with hless | hsame | hmore
  · exact .inl (.inl hless)
  · exact (le_total a.key b.key).imp (fun hle => .inr ⟨hsame, hle⟩) fun hle =>
      .inr ⟨hsame.symm, hle⟩
  · exact .inr (.inl hmore)

theorem before_of_precedes (hfirst : a.precedes b) (hother : a.key ≠ b.key) : a.Before b := by
  refine (precedes_iff.1 hfirst).imp_right fun ⟨hsame, hle⟩ => ⟨hsame, ?_⟩
  exact Text.bytes_lt_iff.2 (lt_of_le_of_ne hle hother)

/-- What is in strict order has one arrangement. -/
theorem eq_of_perm (hperm : gs ~ hs) (hfirst : gs.Pairwise Before) (hsecond : hs.Pairwise Before) :
    gs = hs :=
  hperm.eq_of_pairwise (fun _ _ _ _ honward hback => absurd hback honward.asymm) hfirst hsecond

theorem pairwise_sort (hdistinct : (gs.map key).Nodup) : (sort gs).Pairwise Before := by
  have hinOrder : (sort gs).Pairwise fun a b => a.precedes b :=
    List.pairwise_mergeSort precedes_trans precedes_total gs
  have hothers : (sort gs).Pairwise fun a b => a.key ≠ b.key :=
    List.pairwise_map.1 (((perm_sort gs).map key).nodup_iff.2 hdistinct)
  exact hinOrder.imp₂ (fun _ _ => before_of_precedes) hothers

/-- Sorting gives the list in strict order, and there is no other. -/
theorem eq_sort_iff (hdistinct : (gs.map key).Nodup) :
    hs = sort gs ↔ hs ~ gs ∧ hs.Pairwise Before := by
  constructor
  · rintro rfl
    exact ⟨perm_sort gs, pairwise_sort hdistinct⟩
  · rintro ⟨hperm, hinOrder⟩
    exact eq_of_perm (hperm.trans (perm_sort gs).symm) hinOrder (pairwise_sort hdistinct)

theorem sort_congr (hdistinct : (gs.map key).Nodup) (hperm : hs ~ gs) : sort hs = sort gs := by
  have hdistinct' : (hs.map key).Nodup := (hperm.map key).nodup_iff.2 hdistinct
  exact (eq_sort_iff hdistinct).2 ⟨(perm_sort hs).trans hperm, pairwise_sort hdistinct'⟩

theorem sort_filter (hdistinct : (gs.map key).Nodup) (p : Registration → Bool) :
    sort (gs.filter p) = (sort gs).filter p := by
  have hdistinct' : ((gs.filter p).map key).Nodup :=
    hdistinct.sublist (List.filter_sublist.map key)
  symm
  exact (eq_sort_iff hdistinct').2 ⟨(perm_sort gs).filter p, (pairwise_sort hdistinct).filter p⟩

/-- In a list in order, what is due by an instant stands before the rest. -/
theorem filter_due_append (hinOrder : gs.Pairwise Before) (now : Instant) :
    gs.filter (fun g => g.due ≤ now) ++ gs.filter (fun g => !decide (g.due ≤ now)) = gs := by
  refine eq_of_perm (List.filter_append_perm _ _) ?_ hinOrder
  refine List.pairwise_append.2 ⟨hinOrder.filter _, hinOrder.filter _, fun a ha b hb => .inl ?_⟩
  have hdue : a.due ≤ now := by simpa using (List.mem_filter.1 ha).2
  have hlater : ¬ b.due ≤ now := by simpa using (List.mem_filter.1 hb).2
  exact Int.lt_of_le_of_lt hdue (Int.not_le.1 hlater)

end Registration

namespace Registry

/-- There is one registration under a key, and each has a timer of its own. -/
structure Distinct (r : Registry) : Prop where
  keys : (r.live.map Registration.key).Nodup
  timers : (r.live.map Registration.timer).Nodup

/-- The same registrations, kept in another order, on the same timeline. -/
structure SameContent (r s : Registry) : Prop where
  live : s.live ~ r.live
  timers : s.timers = r.timers
  issued : s.issued = r.issued

variable {r s : Registry} {now : Instant}

theorem Accounts.distinct_timers {l : Ledger} (haccounts : r.Accounts l) :
    (r.live.map Registration.timer).Nodup := by
  have hall : (l.made.map Registration.timer).Nodup := by
    rw [haccounts.timers]
    exact List.nodup_range'
  have hbalance := (haccounts.balanced.map Registration.timer).nodup_iff.2 hall
  rw [List.map_append] at hbalance
  exact (List.nodup_append.1 hbalance).1

theorem distinct_run (clock : Instant) (moves : List Move) :
    ((new clock).run moves).1.Distinct where
  keys := (accounts_run clock moves).keys_nodup
  timers := (accounts_run clock moves).distinct_timers

namespace SameContent

theorem listing (hsame : SameContent r s) (hdistinct : r.Distinct) : s.listing = r.listing :=
  Registration.sort_congr hdistinct.keys hsame.live

theorem events (hsame : SameContent r s) (hdistinct : r.Distinct) : s.events = r.events := by
  rw [Registry.events, hsame.listing hdistinct, Registry.events]

theorem dropAll (hsame : SameContent r s) {gone gone' : List Registration} (hperm : gone' ~ gone) :
    SameContent (r.dropAll gone) (s.dropAll gone') := by
  rw [dropAll_eq, dropAll_eq]
  refine ⟨?_, ?_, hsame.issued⟩
  · simp only [hperm.mem_iff]
    exact hsame.live.filter _
  · simp only [hsame.timers, (hperm.map Registration.timer).mem_iff]

theorem takeDue_fst (hsame : SameContent r s) (hdistinct : r.Distinct) (now : Instant) :
    (s.takeDue now).1 = (r.takeDue now).1 := by
  have hdistinct' : ((r.live.filter (·.due ≤ now)).map Registration.key).Nodup :=
    hdistinct.keys.sublist (List.filter_sublist.map _)
  exact Registration.sort_congr hdistinct' (hsame.live.filter _)

theorem takeDue_snd (hsame : SameContent r s) (hdistinct : r.Distinct) (now : Instant) :
    SameContent (r.takeDue now).2 (s.takeDue now).2 :=
  hsame.dropAll (.of_eq (hsame.takeDue_fst hdistinct now))

theorem eq_of_live_eq_nil (hsame : SameContent r s) (hnone : r.live = []) : s = r := by
  have hnone' : s.live = [] := by simpa [hnone] using hsame.live
  cases r
  cases s
  cases hsame.timers
  cases hsame.issued
  cases hnone
  cases hnone'
  rfl

end SameContent

/-- Everything can be cancelled one after the other in any order. -/
theorem dropAll_eq_cancelAll (hsame : SameContent r s) {order : List Registration}
    (hperm : order ~ r.live) : s.dropAll order = r.cancelAll.2 :=
  (hsame.dropAll (hperm.trans (perm_listing r).symm)).eq_of_live_eq_nil (live_cancelAll r)

theorem dropAll_append (r : Registry) (gone gone' : List Registration) :
    r.dropAll (gone ++ gone') = (r.dropAll gone).dropAll gone' :=
  List.foldl_append

theorem takeDue_fst (hdistinct : r.Distinct) (now : Instant) :
    (r.takeDue now).1 = r.listing.filter (fun g => g.due ≤ now) :=
  Registration.sort_filter hdistinct.keys _

theorem listing_takeDue (hdistinct : r.Distinct) (now : Instant) :
    (r.takeDue now).2.listing = r.listing.filter (fun g => !decide (g.due ≤ now)) := by
  rw [listing, live_takeDue]
  exact Registration.sort_filter hdistinct.keys _

theorem takeDue_append_listing (hdistinct : r.Distinct) (now : Instant) :
    (r.takeDue now).1 ++ (r.takeDue now).2.listing = r.listing := by
  rw [takeDue_fst hdistinct, listing_takeDue hdistinct]
  exact Registration.filter_due_append (Registration.pairwise_sort hdistinct.keys) now

theorem Distinct.takeDue (hdistinct : r.Distinct) (now : Instant) : (r.takeDue now).2.Distinct := by
  have hkept : (r.takeDue now).2.live.Sublist r.live := by
    rw [live_takeDue]
    exact List.filter_sublist
  exact ⟨hdistinct.keys.sublist (hkept.map _), hdistinct.timers.sublist (hkept.map _)⟩

/-- What is claimed up to an instant and then up to a later one is claimed at once up to the
later one. -/
theorem takeDue_append_takeDue (hdistinct : r.Distinct) {first second : Instant}
    (honward : first ≤ second) :
    (r.takeDue first).1 ++ ((r.takeDue first).2.takeDue second).1 = (r.takeDue second).1 := by
  have hinOrder : (r.listing.filter (fun g => g.due ≤ second)).Pairwise Registration.Before :=
    (Registration.pairwise_sort hdistinct.keys).filter _
  rw [takeDue_fst hdistinct, takeDue_fst (hdistinct.takeDue first), listing_takeDue hdistinct,
    takeDue_fst hdistinct, ← Registration.filter_due_append hinOrder first]
  congr 1
  · rw [List.filter_filter]
    refine List.filter_congr fun g _ => ?_
    have hboth : g.due ≤ first → g.due ≤ second := fun hdue => Int.le_trans hdue honward
    simpa using hboth
  · exact List.filter_comm _ _ _

theorem takeDue_takeDue (hdistinct : r.Distinct) {first second : Instant}
    (honward : first ≤ second) : ((r.takeDue first).2.takeDue second).2 = (r.takeDue second).2 := by
  calc ((r.takeDue first).2.takeDue second).2
    _ = (r.dropAll (r.takeDue first).1).dropAll ((r.takeDue first).2.takeDue second).1 := rfl
    _ = r.dropAll ((r.takeDue first).1 ++ ((r.takeDue first).2.takeDue second).1) :=
      (dropAll_append r _ _).symm
    _ = r.dropAll (r.takeDue second).1 := by rw [takeDue_append_takeDue hdistinct honward]

/-- A timer with the number of a registration that is not due stays as it is. -/
theorem mem_pending_takeDue_of_later (hdistinct : r.Distinct) {g : Registration}
    (hlisted : g ∈ r.live) (hlater : ¬ g.due ≤ now) {t : Timer Fire} (howned : t.id = g.timer) :
    t ∈ (r.takeDue now).2.timers.pending ↔ t ∈ r.timers.pending := by
  rw [mem_pending_takeDue]
  refine and_iff_left fun h hlive hdue hsame => hlater ?_
  rwa [← List.inj_on_of_nodup_map hdistinct.timers hlive hlisted (hsame.trans howned)]

theorem cancelAll_snd (r : Registry) :
    r.cancelAll.2 =
      { r with
        live := []
        timers :=
          { r.timers with
            pending := r.timers.pending.filter (·.id ∉ r.live.map Registration.timer) } } := by
  have hperm := (perm_listing r).map Registration.timer
  rw [← live_cancelAll r]
  simp only [cancelAll, dropAll_eq, hperm.mem_iff]

theorem takeDue_snd (r : Registry) (now : Instant) :
    (r.takeDue now).2 =
      { r with
        live := r.live.filter (fun g => !decide (g.due ≤ now))
        timers :=
          { r.timers with
            pending :=
              r.timers.pending.filter (·.id ∉ (r.takeDue now).1.map Registration.timer) } } := by
  rw [← live_takeDue]
  simp only [takeDue, dropAll_eq]

/-- A registry that is reached by any moves has distinct keys and timers, and for every registry of
that kind: its list is the one arrangement of what is live in strict order of deadline and key.
Another order of keeping gives the same list and the same claims, and whatever the order is in which
everything is cancelled, the registry and its timeline are the same afterwards. A claim up to an
instant hands out what is due in the order of the list, takes it and its timers away and nothing
else; the list before is what was handed out and then the list after. Two claims that go onward hand
out what the second would have alone, and leave the same. -/
theorem views_determined :
    (∀ clock moves, ((new clock).run moves).1.Distinct) ∧
      ∀ r : Registry, r.Distinct →
        (∀ gs, gs = r.listing ↔ gs ~ r.live ∧ gs.Pairwise Registration.Before) ∧
        r.events = r.listing.map Registration.event ∧
        (∀ s, SameContent r s →
          s.events = r.events ∧
          (∀ now, (s.takeDue now).1 = (r.takeDue now).1 ∧
            SameContent (r.takeDue now).2 (s.takeDue now).2) ∧
          ∀ order, order ~ r.live → s.dropAll order =
            { r with
              live := []
              timers :=
                { r.timers with
                  pending :=
                    r.timers.pending.filter (·.id ∉ r.live.map Registration.timer) } }) ∧
        (∀ now,
          let (taken, rest) := r.takeDue now
          taken = r.listing.filter (fun g => g.due ≤ now) ∧
          rest =
            { r with
              live := r.live.filter (fun g => !decide (g.due ≤ now))
              timers :=
                { r.timers with
                  pending := r.timers.pending.filter (·.id ∉ taken.map Registration.timer) } } ∧
          (∀ g ∈ r.live, ¬ g.due ≤ now → ∀ t : Timer Fire, t.id = g.timer →
            (t ∈ rest.timers.pending ↔ t ∈ r.timers.pending)) ∧
          r.events = taken.map Registration.event ++ rest.events) ∧
        ∀ first second : Instant, first ≤ second →
          (r.takeDue first).1 ++ ((r.takeDue first).2.takeDue second).1 = (r.takeDue second).1 ∧
          ((r.takeDue first).2.takeDue second).2 = (r.takeDue second).2 := by
  refine ⟨distinct_run, fun r hdistinct => ⟨fun gs => Registration.eq_sort_iff hdistinct.keys, rfl,
    fun s hsame => ?_, fun now => ?_, fun first second honward => ?_⟩⟩
  · refine ⟨hsame.events hdistinct, fun now => ?_, fun order hperm => ?_⟩
    · exact ⟨hsame.takeDue_fst hdistinct now, hsame.takeDue_snd hdistinct now⟩
    · rw [dropAll_eq_cancelAll hsame hperm, cancelAll_snd]
  · refine ⟨takeDue_fst hdistinct now, takeDue_snd r now, fun g hlive hlater t howned => ?_, ?_⟩
    · exact mem_pending_takeDue_of_later hdistinct hlive hlater howned
    · rw [events, ← takeDue_append_listing hdistinct now, List.map_append]
      rfl
  · exact ⟨takeDue_append_takeDue hdistinct honward, takeDue_takeDue hdistinct honward⟩

/-- Two deadlines are the same instant in different zones, and the third is long past. The keys
decide between the two, whichever is kept first. -/
theorem views_determined_tied :
    let azan (prayer : Prayer) : Event := .azan prayer ⟨0⟩ ⟨0, by decide⟩
    let r := ((new ⟨0, .utc⟩).run
      [.register (azan .zuhr) ⟨5000, .ofMinutes 60⟩, .register (azan .asr) ⟨5000, .utc⟩,
        .register (azan .isha) ⟨-7000, .utc⟩]).1
    r.Distinct ∧ r.events = [azan .isha, azan .asr, azan .zuhr] ∧
      ({ r with live := r.live.reverse } : Registry).events = r.events ∧
      (r.takeDue ⟨0, .utc⟩).1 ++ ((r.takeDue ⟨0, .utc⟩).2.takeDue ⟨5000, .utc⟩).1 =
        (r.takeDue ⟨5000, .utc⟩).1 := by
  intro azan r
  have hdistinct : r.Distinct := views_determined.1 _ _
  obtain ⟨hsole, hmapped, horders, -, honward⟩ := views_determined.2 r hdistinct
  have hlisted : [⟨3, 3, azan .isha, ⟨-7000, .utc⟩⟩, ⟨2, 2, azan .asr, ⟨5000, .utc⟩⟩,
      ⟨1, 1, azan .zuhr, ⟨5000, .ofMinutes 60⟩⟩] = r.listing :=
    (hsole _).2 ⟨by decide +kernel, by decide +kernel⟩
  refine ⟨hdistinct, ?_, ?_, (honward _ _ (by decide)).1⟩
  · rw [hmapped, ← hlisted]
    rfl
  · exact (horders { r with live := r.live.reverse } ⟨List.reverse_perm _, rfl, rfl⟩).1

end Registry

end Muezzin
