/-!
# Maps listed in the order of their keys

A map is its list of entries with strictly ascending keys, so two maps with the same entries are
equal and every walk over a map visits the keys in order. Entering a key a second time replaces its
value.
-/

namespace Muezzin

open Std

structure SortedMap (κ α : Type) [Ord κ] where
  entries : List (κ × α)
  sorted : entries.Pairwise (fun a b => compare a.1 b.1 = .lt)

namespace SortedMap

variable {κ α β : Type} [Ord κ]

instance [DecidableEq κ] [DecidableEq α] : DecidableEq (SortedMap κ α) := fun a b =>
  decidable_of_iff (a.entries = b.entries) (by cases a; cases b; simp)

instance [Repr κ] [Repr α] : Repr (SortedMap κ α) := ⟨fun m n => reprPrec m.entries n⟩

def empty : SortedMap κ α := ⟨[], .nil⟩

instance : Inhabited (SortedMap κ α) := ⟨empty⟩

def toList (m : SortedMap κ α) : List (κ × α) := m.entries

def insertEntry (k : κ) (a : α) : List (κ × α) → List (κ × α)
  | [] => [(k, a)]
  | e :: rest =>
    match compare k e.1 with
    | .lt => (k, a) :: e :: rest
    | .eq => (k, a) :: rest
    | .gt => e :: insertEntry k a rest

theorem mem_insertEntry {k : κ} {a : α} {es : List (κ × α)} {e : κ × α}
    (h : e ∈ insertEntry k a es) : e = (k, a) ∨ e ∈ es := by
  induction es with
  | nil => simpa [insertEntry] using h
  | cons f rest ih =>
    rw [insertEntry] at h
    split at h
    · simpa using h
    · simp only [List.mem_cons] at h
      rcases h with h | h
      · exact .inl h
      · exact .inr (List.mem_cons_of_mem _ h)
    · simp only [List.mem_cons] at h
      rcases h with h | h
      · exact .inr (by simp [h])
      · rcases ih h with h | h
        · exact .inl h
        · exact .inr (List.mem_cons_of_mem _ h)

variable [TransOrd κ]

theorem pairwise_insertEntry (k : κ) (a : α) {es : List (κ × α)}
    (h : es.Pairwise (fun a b => compare a.1 b.1 = .lt)) :
    (insertEntry k a es).Pairwise (fun a b => compare a.1 b.1 = .lt) := by
  induction es with
  | nil => simp [insertEntry]
  | cons f rest ih =>
    obtain ⟨hf, hrest⟩ := List.pairwise_cons.1 h
    rw [insertEntry]
    split
    · next hlt =>
      refine List.pairwise_cons.2 ⟨fun e he => ?_, h⟩
      rcases List.mem_cons.1 he with rfl | he
      · exact hlt
      · exact TransCmp.lt_trans hlt (hf e he)
    · next heq =>
      refine List.pairwise_cons.2 ⟨fun e he => ?_, hrest⟩
      rw [TransCmp.congr_left heq]
      exact hf e he
    · next hgt =>
      refine List.pairwise_cons.2 ⟨fun e he => ?_, ih hrest⟩
      rcases mem_insertEntry he with rfl | he
      · exact OrientedCmp.gt_iff_lt.1 hgt
      · exact hf e he

def insert (m : SortedMap κ α) (k : κ) (a : α) : SortedMap κ α :=
  ⟨insertEntry k a m.entries, pairwise_insertEntry k a m.sorted⟩

def ofList (es : List (κ × α)) : SortedMap κ α :=
  es.foldl (fun m e => m.insert e.1 e.2) empty

def get? (m : SortedMap κ α) (k : κ) : Option α :=
  (m.entries.find? fun e => compare k e.1 == .eq).map Prod.snd

theorem find?_insertEntry_self (k : κ) (a : α) (es : List (κ × α)) :
    (insertEntry k a es).find? (fun e => compare k e.1 == .eq) = some (k, a) := by
  induction es with
  | nil => simp [insertEntry]
  | cons f rest ih =>
    rw [insertEntry]
    split
    · simp
    · simp
    · next hlater => rw [List.find?_cons_of_neg (by simp [hlater]), ih]

theorem find?_insertEntry_of_ne {k other : κ} (hdifferent : compare other k ≠ .eq) (a : α)
    (es : List (κ × α)) :
    (insertEntry k a es).find? (fun e => compare other e.1 == .eq) =
      es.find? fun e => compare other e.1 == .eq := by
  induction es with
  | nil => simp [insertEntry, hdifferent]
  | cons f rest ih =>
    rw [insertEntry]
    split
    · rw [List.find?_cons_of_neg (by simpa using hdifferent)]
    · next hsame =>
      have hskipped : compare other f.1 ≠ .eq := by
        rwa [← TransCmp.congr_right hsame]
      rw [List.find?_cons_of_neg (by simpa using hdifferent),
        List.find?_cons_of_neg (by simpa using hskipped)]
    · rw [List.find?_cons, List.find?_cons, ih]

theorem get?_insert_self (m : SortedMap κ α) (k : κ) (a : α) : (m.insert k a).get? k = some a := by
  rw [get?, insert, find?_insertEntry_self]
  rfl

theorem get?_insert_of_ne (m : SortedMap κ α) {k other : κ} (hdifferent : compare other k ≠ .eq)
    (a : α) : (m.insert k a).get? other = m.get? other := by
  rw [get?, insert, find?_insertEntry_of_ne hdifferent]
  rfl

theorem find?_of_mem {es : List (κ × α)} (hsorted : es.Pairwise (fun a b => compare a.1 b.1 = .lt))
    {e : κ × α} (h : e ∈ es) : es.find? (fun f => compare e.1 f.1 == .eq) = some e := by
  induction es with
  | nil => cases h
  | cons f rest ih =>
    obtain ⟨hfirst, hsorted⟩ := List.pairwise_cons.1 hsorted
    rcases List.mem_cons.1 h with rfl | h
    · simp
    · have hlater : compare e.1 f.1 = .gt := OrientedCmp.gt_iff_lt.2 (hfirst e h)
      rw [List.find?_cons_of_neg (by simp [hlater]), ih hsorted h]

theorem get?_of_mem {m : SortedMap κ α} {e : κ × α} (h : e ∈ m.toList) :
    m.get? e.1 = some e.2 := by
  rw [get?, find?_of_mem m.sorted h]
  rfl

omit [TransOrd κ] in
theorem mem_of_get? [LawfulEqOrd κ] {m : SortedMap κ α} {k : κ} {a : α} (h : m.get? k = some a) :
    (k, a) ∈ m.toList := by
  obtain ⟨e, hfound, rfl⟩ := Option.map_eq_some_iff.1 h
  have hsame : k = e.1 := LawfulEqOrd.eq_of_compare (by simpa using List.find?_some hfound)
  rw [hsame]
  exact List.mem_of_find?_eq_some hfound

omit [TransOrd κ] in
theorem insertEntry_of_gt {k : κ} (a : α) {es : List (κ × α)}
    (h : ∀ e ∈ es, compare k e.1 = .gt) : insertEntry k a es = es ++ [(k, a)] := by
  induction es with
  | nil => rfl
  | cons f rest ih =>
    rw [insertEntry, h f List.mem_cons_self]
    dsimp only
    rw [ih fun e he => h e (List.mem_cons_of_mem f he), List.cons_append]

/-- Entries that come in the order of their keys, after all that are there, are appended. -/
theorem entries_foldl_insert {m : SortedMap κ α} {es : List (κ × α)}
    (hsorted : (m.entries ++ es).Pairwise (fun a b => compare a.1 b.1 = .lt)) :
    (es.foldl (fun m e => m.insert e.1 e.2) m).entries = m.entries ++ es := by
  induction es generalizing m with
  | nil => simp
  | cons e es ih =>
    have hfirst : (m.insert e.1 e.2).entries = m.entries ++ [e] :=
      insertEntry_of_gt e.2 fun f hf =>
        OrientedCmp.gt_iff_lt.2 ((List.pairwise_append.1 hsorted).2.2 f hf e List.mem_cons_self)
    rw [List.foldl_cons, ih (by rw [hfirst]; simpa using hsorted), hfirst]
    simp

theorem mem_foldl_insert {m : SortedMap κ α} {es : List (κ × α)} {e : κ × α}
    (h : e ∈ (es.foldl (fun m e => m.insert e.1 e.2) m).toList) : e ∈ m.toList ∨ e ∈ es := by
  induction es generalizing m with
  | nil => exact .inl h
  | cons f es ih =>
    rcases ih h with hearly | hlate
    · rcases mem_insertEntry hearly with rfl | hold
      · exact .inr List.mem_cons_self
      · exact .inl hold
    · exact .inr (List.mem_cons_of_mem f hlate)

theorem mem_of_mem_ofList {es : List (κ × α)} {e : κ × α} (h : e ∈ (ofList es).toList) : e ∈ es :=
  (mem_foldl_insert h).resolve_left List.not_mem_nil

theorem ofList_toList (m : SortedMap κ α) : ofList m.toList = m := by
  obtain ⟨es, hsorted⟩ := m
  have hwhole : (ofList es).entries = es := entries_foldl_insert (m := empty) hsorted
  show ofList es = _
  cases h : ofList es with
  | mk fs hsorted' =>
    rw [h] at hwhole
    subst hwhole
    rfl

end SortedMap

end Muezzin
