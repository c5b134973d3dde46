import Muezzin.Change
import Muezzin.PrayerTimes
import Muezzin.Settings

/-!
# Prayer times and settings in memory

Times are kept per date with a default for all other dates. Settings tell every watcher about every
change that is made to them, also if nothing is different afterwards.
-/

namespace Muezzin

structure MemoryTimes where
  days : SortedMap Date PrayerTimes := .empty
  /-- The times of dates without an entry. -/
  fallback : Option PrayerTimes := none
  deriving DecidableEq, Repr, Inhabited

namespace MemoryTimes

def empty : MemoryTimes := {}

def timesOn (m : MemoryTimes) (date : Date) : Option PrayerTimes :=
  (m.days.get? date).or m.fallback

def insert (m : MemoryTimes) (date : Date) (times : PrayerTimes) : MemoryTimes :=
  { m with days := m.days.insert date times }

def setDefault (m : MemoryTimes) (times : Option PrayerTimes) : MemoryTimes :=
  { m with fallback := times }

end MemoryTimes

structure MemorySettings where
  prayers : Option PrayerSettings := none
  flags : FeatureFlags := {}
  watchers : List ChangeFeed := []
  deriving DecidableEq, Inhabited

namespace MemorySettings

def empty : MemorySettings := {}

def announce (m : MemorySettings) (change : SettingsChange) : MemorySettings :=
  { m with watchers := m.watchers.map (·.push change) }

def setPrayers (m : MemorySettings) (settings : PrayerSettings) : MemorySettings :=
  { m with prayers := some settings }.announce .prayerSettings

def setFlags (m : MemorySettings) (flags : FeatureFlags) : MemorySettings :=
  { m with flags }.announce .featureFlags

/-- Adds a watcher and gives its number, counted from 0. It sees what changes from now on. -/
def watch (m : MemorySettings) : Nat × MemorySettings :=
  (m.watchers.length, { m with watchers := m.watchers ++ [.empty] })

def drain (m : MemorySettings) (watcher : Nat) : List SettingsChange × MemorySettings :=
  match m.watchers[watcher]? with
  | none => ([], m)
  | some feed => (feed.drain, { m with watchers := m.watchers.set watcher .empty })

end MemorySettings

end Muezzin
