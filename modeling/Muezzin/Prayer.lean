import Muezzin.Text.Blank

/-!
# The six slots of a day and tables over them

Sunrise is a slot of the timetable without a congregation: it has a time, but nothing is ever
announced for it. The order of the constructors is the order of the day.
-/

namespace Muezzin

inductive Prayer where
  | fajr
  | sunrise
  | zuhr
  | asr
  | maghrib
  | isha
  deriving DecidableEq, Repr, Inhabited

namespace Prayer

def all : List Prayer :=
  [.fajr, .sunrise, .zuhr, .asr, .maghrib, .isha]

def congregational : List Prayer :=
  [.fajr, .zuhr, .asr, .maghrib, .isha]

def name : Prayer → String
  | .fajr => "fajr"
  | .sunrise => "sunrise"
  | .zuhr => "zuhr"
  | .asr => "asr"
  | .maghrib => "maghrib"
  | .isha => "isha"

instance : ToString Prayer := ⟨name⟩

def hasIqamah (p : Prayer) : Bool :=
  p != .sunrise

def ofSpelling? : String → Option Prayer
  | "fajr" => some .fajr
  | "sunrise" => some .sunrise
  | "shuruq" => some .sunrise
  | "zuhr" => some .zuhr
  | "dhuhr" => some .zuhr
  | "duhr" => some .zuhr
  | "asr" => some .asr
  | "maghrib" => some .maghrib
  | "isha" => some .isha
  | _ => none

/-- A name as it is compared with the spellings: without blanks around it, in lower case. -/
def foldName (text : String) : String :=
  String.ofList (Text.lower (Text.trim text.toList))

theorem mem_all (p : Prayer) : p ∈ all := by
  cases p <;> decide

theorem mem_congregational_iff {p : Prayer} : p ∈ congregational ↔ p.hasIqamah := by
  cases p <;> decide

end Prayer

structure PrayerTable (α : Type) where
  fajr : Option α := none
  sunrise : Option α := none
  zuhr : Option α := none
  asr : Option α := none
  maghrib : Option α := none
  isha : Option α := none
  deriving DecidableEq, Repr

namespace PrayerTable

variable {α β : Type}

def empty : PrayerTable α := {}

instance : Inhabited (PrayerTable α) := ⟨empty⟩

def get? (t : PrayerTable α) : Prayer → Option α
  | .fajr => t.fajr
  | .sunrise => t.sunrise
  | .zuhr => t.zuhr
  | .asr => t.asr
  | .maghrib => t.maghrib
  | .isha => t.isha

def put (t : PrayerTable α) (p : Prayer) (entry : Option α) : PrayerTable α :=
  match p with
  | .fajr => { t with fajr := entry }
  | .sunrise => { t with sunrise := entry }
  | .zuhr => { t with zuhr := entry }
  | .asr => { t with asr := entry }
  | .maghrib => { t with maghrib := entry }
  | .isha => { t with isha := entry }

def insert (t : PrayerTable α) (p : Prayer) (a : α) : PrayerTable α :=
  t.put p (some a)

def erase (t : PrayerTable α) (p : Prayer) : PrayerTable α :=
  t.put p none

def toList (t : PrayerTable α) : List (Prayer × α) :=
  Prayer.all.filterMap fun p => (t.get? p).map (p, ·)

def ofFn (f : Prayer → Option α) : PrayerTable α :=
  ⟨f .fajr, f .sunrise, f .zuhr, f .asr, f .maghrib, f .isha⟩

def map (f : Prayer → α → β) (t : PrayerTable α) : PrayerTable β :=
  ofFn fun p => (t.get? p).map (f p)

@[simp] theorem get?_empty (p : Prayer) : (empty : PrayerTable α).get? p = none := by
  cases p <;> rfl

@[simp] theorem get?_ofFn (f : Prayer → Option α) (p : Prayer) : (ofFn f).get? p = f p := by
  cases p <;> rfl

@[simp] theorem get?_put_self (t : PrayerTable α) (p : Prayer) (entry : Option α) :
    (t.put p entry).get? p = entry := by
  cases p <;> rfl

theorem get?_put_of_ne (t : PrayerTable α) {p q : Prayer} (h : q ≠ p) (entry : Option α) :
    (t.put p entry).get? q = t.get? q := by
  cases p <;> cases q <;> simp_all [put, get?]

@[simp] theorem get?_map (f : Prayer → α → β) (t : PrayerTable α) (p : Prayer) :
    (t.map f).get? p = (t.get? p).map (f p) := by
  simp [map]

end PrayerTable

end Muezzin
