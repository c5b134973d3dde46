import Muezzin.Prayer

/-!
# Switches

An azan plays when the global switch and the switch of its prayer are on. An announcement plays
when its azan does and both of its own switches are on as well, so turning off the azans silences
everything.
-/

namespace Muezzin

structure Toggles where
  azan : Bool := false
  announcement : Bool := false
  /-- Play the azan at the iqamah time instead of the start time. -/
  azanAtIqamah : Bool := false
  deriving DecidableEq, Repr, Inhabited

def Toggles.allEnabled : Toggles :=
  ⟨true, true, false⟩

/-- The switches of all prayers; a prayer without an entry has everything off. -/
abbrev PrayerSettings := PrayerTable Toggles

namespace PrayerSettings

def toggles (settings : PrayerSettings) (p : Prayer) : Toggles :=
  (settings.get? p).getD {}

def uniform (toggles : Toggles) : PrayerSettings :=
  PrayerTable.ofFn fun p => if p.hasIqamah then some toggles else none

end PrayerSettings

structure FeatureFlags where
  azan : Bool := false
  announcement : Bool := false
  deriving DecidableEq, Repr, Inhabited

structure Enablement where
  azan : Bool
  announcement : Bool
  deriving DecidableEq, Repr

def Enablement.resolve (flags : FeatureFlags) (toggles : Toggles) : Enablement :=
  let azan := flags.azan && toggles.azan
  ⟨azan, azan && flags.announcement && toggles.announcement⟩

end Muezzin
