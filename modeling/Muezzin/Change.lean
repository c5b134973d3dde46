/-!
# Changes of settings and the feed that carries them

Whoever watches the settings has a feed of changes. A feed keeps the latest 64; when more come in
before they are looked at, the oldest are lost, and the watcher is told once that it missed
something before it sees the 64 that are left.
-/

namespace Muezzin

inductive SettingsChange where
  | prayerSettings
  | featureFlags
  /-- The prayer times or their offsets. -/
  | prayerSource
  deriving DecidableEq, Repr

def SettingsChange.message : SettingsChange → String
  | .prayerSettings => "prayer settings changed"
  | .featureFlags => "feature flags changed"
  | .prayerSource => "prayer source changed"

def ChangeFeed.capacity : Nat := 64

structure ChangeFeed where
  waiting : List SettingsChange
  waiting_le : waiting.length ≤ ChangeFeed.capacity
  /-- Changes before the waiting ones were lost, and the watcher does not know it yet. -/
  missed : Bool
  deriving DecidableEq

namespace ChangeFeed

def empty : ChangeFeed := ⟨[], Nat.zero_le _, false⟩

instance : Inhabited ChangeFeed := ⟨empty⟩

theorem length_append_change_le {changes : List SettingsChange} (change : SettingsChange)
    (h : changes.length < capacity) : (changes ++ [change]).length ≤ capacity := by
  rw [List.length_append, List.length_singleton]
  exact h

theorem length_tail_append_change_le {changes : List SettingsChange} (change : SettingsChange)
    (h : changes.length ≤ capacity) : (changes.tail ++ [change]).length ≤ capacity := by
  have : 0 < capacity := by decide
  apply length_append_change_le
  rw [List.length_tail]
  omega

theorem length_le_of_cons {change : SettingsChange} {rest : List SettingsChange}
    (h : (change :: rest).length ≤ capacity) : rest.length ≤ capacity :=
  Nat.le_of_succ_le h

/-- Adds a change; the oldest one is lost if there is no room. -/
def push (feed : ChangeFeed) (change : SettingsChange) : ChangeFeed :=
  if h : feed.waiting.length < capacity then
    ⟨feed.waiting ++ [change], length_append_change_le change h, feed.missed⟩
  else
    ⟨feed.waiting.tail ++ [change], length_tail_append_change_le change feed.waiting_le, true⟩

/-- What the watcher sees next. Lost changes look like one change of the prayers' switches. -/
def next? (feed : ChangeFeed) : Option (SettingsChange × ChangeFeed) :=
  if feed.missed then some (.prayerSettings, { feed with missed := false })
  else
    match h : feed.waiting with
    | [] => none
    | change :: rest =>
      some (change, ⟨rest, length_le_of_cons (h ▸ feed.waiting_le), false⟩)

def size (feed : ChangeFeed) : Nat :=
  feed.waiting.length + (if feed.missed then 1 else 0)

theorem size_next? {feed rest : ChangeFeed} {change : SettingsChange}
    (h : feed.next? = some (change, rest)) : feed.size = rest.size + 1 := by
  unfold next? at h
  split at h
  · cases h
    simp_all [size]
  · split at h
    · simp at h
    · cases h
      simp_all [size]

def drain (feed : ChangeFeed) : List SettingsChange :=
  (if feed.missed then [.prayerSettings] else []) ++ feed.waiting

end ChangeFeed

end Muezzin
