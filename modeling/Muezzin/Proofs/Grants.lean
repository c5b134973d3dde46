import Muezzin.Proofs.EngineBooks
import Muezzin.Proofs.Rollovers
import Muezzin.Proofs.Settling

/-!
# What a guard grants

A guard is asked again and again, under any keys and at any times, and the times need not go
forwards. Under every key it is a greedy filter: a call is granted if it is the first under its key
or comes a minute after the last one granted. A step changes the record of one key, and only if it
grants the call. So the keys do not see one another, a refusal might as well not have been asked
for, and there is a record for every key that was ever called.

How long ago the last run was is a difference of 64 bits. If the two times are near, it is the true
one. If not, it is off by 2⁶⁴, so that a call from long before the last run is granted and takes its
place. The readings of a clock in the calendar are all near one another.
-/

namespace Muezzin

namespace Debounce

structure Call (τ : Type) where
  key : String
  now : τ
  deriving DecidableEq, Repr

section
variable {τ : Type} [Sub τ] [LE τ] [DecidableLE τ] [OfNat τ 60000]

def next (d : Debounce τ) (c : Call τ) : Debounce τ :=
  (d.ask c.key c.now).2

def after (d : Debounce τ) (calls : List (Call τ)) : Debounce τ :=
  calls.foldl next d

def answers (d : Debounce τ) : List (Call τ) → List (Call τ × Bool)
  | [] => []
  | c :: calls => (c, (d.ask c.key c.now).1) :: (d.next c).answers calls

variable {d e : Debounce τ} {c : Call τ} {calls later : List (Call τ)} {key : String}

theorem ask_fst (d : Debounce τ) (key : String) (now : τ) :
    (d.ask key now).1 = d.allows key now := by
  by_cases hallowed : d.allows key now
  · rw [ask_of_allows hallowed, hallowed]
  · rw [ask_of_not_allows hallowed, Bool.eq_false_iff.2 hallowed]

theorem next_of_allows (hallowed : d.allows c.key c.now) : d.next c = d.stamp c.key c.now := by
  rw [next, ask_of_allows hallowed]

theorem next_of_not_allows (hrefused : ¬ d.allows c.key c.now) : d.next c = d := by
  rw [next, ask_of_not_allows hrefused]

theorem after_append (d : Debounce τ) (calls later : List (Call τ)) :
    d.after (calls ++ later) = (d.after calls).after later :=
  List.foldl_append

end

/-! ### Records -/

/-- The time from `last` to `now` is a number of 64 bits. -/
def Near (last now : Int64) : Prop :=
  -2 ^ 63 ≤ now.toInt - last.toInt ∧ now.toInt - last.toInt < 2 ^ 63

instance (last now : Int64) : Decidable (Near last now) :=
  inferInstanceAs (Decidable (_ ∧ _))

theorem Near.toInt_sub {last now : Int64} (hnear : Near last now) :
    (now - last).toInt = now.toInt - last.toInt := by
  obtain ⟨hlow, hhigh⟩ := hnear
  rw [Int64.toInt_sub]
  exact Int.bmod_eq_of_le (by omega) (by omega)

theorem Near.windowMillis_le_iff {last now : Int64} (hnear : Near last now) :
    windowMillis ≤ now - last ↔ windowMillis ≤ now.toInt - last.toInt := by
  rw [Int64.le_iff_toInt_le, hnear.toInt_sub]
  rfl

def Agrees (d : Debounce Int64) (e : Debounce Int) : Prop :=
  ∀ key, e.lastRun? key = (d.lastRun? key).map Int64.toInt

variable {d : Debounce Int64} {e : Debounce Int} {c : Call Int64} {calls : List (Call Int64)}

def Call.exact (c : Call Int64) : Call Int :=
  ⟨c.key, c.now.toInt⟩

theorem Agrees.allows (hagree : Agrees d e)
    (hnear : ∀ last, d.lastRun? c.key = some last → Near last c.now) :
    e.allows c.key c.now.toInt = d.allows c.key c.now := by
  rw [Debounce.allows, Debounce.allows, hagree]
  cases hran : d.lastRun? c.key with
  | none => rfl
  | some last => exact decide_eq_decide.2 (hnear last hran).windowMillis_le_iff.symm

theorem Agrees.next (hagree : Agrees d e)
    (hnear : ∀ last, d.lastRun? c.key = some last → Near last c.now) :
    Agrees (d.next c) (e.next c.exact) := by
  have hsame := hagree.allows hnear
  by_cases hallowed : d.allows c.key c.now
  · rw [next_of_allows hallowed, next_of_allows (c := c.exact) (hsame.trans hallowed)]
    intro key
    by_cases hmine : key = c.key
    · rw [hmine, lastRun?_stamp_self, Call.exact, lastRun?_stamp_self]
      rfl
    · rw [lastRun?_stamp_of_ne _ hmine, Call.exact, lastRun?_stamp_of_ne _ hmine, hagree]
  · rw [next_of_not_allows hallowed, next_of_not_allows (c := c.exact) (hsame ▸ hallowed)]
    exact hagree

/-- The records of the guard stay near to the calls that are still to come. -/
theorem Agrees.answers (hagree : Agrees d e)
    (hnear : ∀ c ∈ calls, ∀ last, d.lastRun? c.key = some last → Near last c.now)
    (hcalls : calls.Pairwise fun a b => a.key = b.key → Near a.now b.now) :
    e.answers (calls.map Call.exact) = (d.answers calls).map fun a => (a.1.exact, a.2) := by
  induction calls generalizing d e with
  | nil => rfl
  | cons c calls ih =>
    obtain ⟨hfirst, hrest⟩ := List.pairwise_cons.1 hcalls
    have hhere := hnear c List.mem_cons_self
    have hanswer : (e.ask c.key c.now.toInt).1 = (d.ask c.key c.now).1 := by
      rw [ask_fst, ask_fst, hagree.allows hhere]
    have honward : ∀ b ∈ calls, ∀ last, (d.next c).lastRun? b.key = some last →
        Near last b.now := by
      intro b hb last hran
      by_cases hallowed : d.allows c.key c.now
      · rw [next_of_allows hallowed] at hran
        by_cases hmine : b.key = c.key
        · rw [hmine, lastRun?_stamp_self] at hran
          exact Option.some.inj hran ▸ hfirst b hb hmine.symm
        · rw [lastRun?_stamp_of_ne _ hmine] at hran
          exact hnear b (List.mem_cons_of_mem c hb) last hran
      · rw [next_of_not_allows hallowed] at hran
        exact hnear b (List.mem_cons_of_mem c hb) last hran
    rw [List.map_cons, Debounce.answers, Debounce.answers, List.map_cons,
      ih (hagree.next hhere) honward hrest]
    exact congrArg (fun answer => (c.exact, answer) :: _) hanswer

/-- The readings of a clock in the calendar get the same answers in 64 bits as exactly. -/
theorem answers_readings {readings : List (String × Instant)}
    (hcalendar : ∀ r ∈ readings, r.2.InCalendar) :
    (answers {} (readings.map fun r => (⟨r.1, Int64.ofInt r.2.millis⟩ : Call Int64))).map Prod.snd =
      (answers {} (readings.map fun r => (⟨r.1, r.2.millis⟩ : Call Int))).map Prod.snd := by
  have hexact (r) (hr : r ∈ readings) : (Int64.ofInt r.2.millis).toInt = r.2.millis := by
    have hbounds := (hcalendar r hr).natAbs_millis_lt
    exact Int64.toInt_ofInt_of_le (by omega) (by omega)
  have hcalls : (readings.map fun r => (⟨r.1, Int64.ofInt r.2.millis⟩ : Call Int64)).map
      Call.exact = readings.map fun r => ⟨r.1, r.2.millis⟩ := by
    rw [List.map_map]
    refine List.map_congr_left fun r hr => ?_
    simp [Call.exact, hexact r hr]
  have hagree : Agrees {} {} := fun key => rfl
  rw [← hcalls, hagree.answers (fun _ _ _ hran => nomatch hran), List.map_map]
  · rfl
  · rw [List.pairwise_map]
    refine List.Pairwise.imp_mem.2 (List.pairwise_of_forall fun a b ha hb hsame => ?_)
    have hfirst := (hcalendar a ha).natAbs_millis_lt
    have hsecond := (hcalendar b hb).natAbs_millis_lt
    rw [Near, hexact a ha, hexact b hb]
    omega

end Debounce

end Muezzin
