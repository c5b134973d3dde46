import Muezzin.Json.Domain
import Muezzin.Proofs.Attempts

/-!
# Written documents and their decoders

A decoder takes more than what is written: members in any order, fields that are left out, arrays
for records. What is written has all fields in order, so a decoder reads it one field after another,
one member after another, or as the variant that the tag tells. And whatever the fields of a record
keep holds of every record that was read, however it was written.
-/

namespace Muezzin

open Json (Refusal)

namespace Json

namespace Decoder

variable {α κ σ : Type}

section Members

variable {name : String → Except Refusal κ} {value : Decoder α} (nameOf : κ → String)
  (toJson : α → Json)

theorem entries_record {es : List (κ × α)} (hnames : ∀ e ∈ es, name (nameOf e.1) = .ok e.1)
    (hvalues : ∀ e ∈ es, value (toJson e.2) = .ok e.2) :
    entries name value (.record (es.map fun e => (nameOf e.1, toJson e.2))) = .ok es := by
  rw [Json.record, entries, List.map_map]
  apply mapM_eq_ok_self
  intro e he
  simp only [Function.comp_apply, hnames e he, hvalues e he]
  rfl

theorem name_of_entries {es : List (κ × α)} {j : Json} (hread : entries name value j = .ok es)
    {e : κ × α} (h : e ∈ es) : ∃ text, name text = .ok e.1 := by
  unfold entries at hread
  split at hread
  · obtain ⟨⟨_ | text, v⟩, -, hone⟩ := (mem_of_mapM_eq_ok hread).1 h
    · cases hone
    · cases hkey : name text with
      | error e => simp [hkey, bind, Except.bind] at hone
      | ok k =>
        cases hdecoded : value v with
        | error e => simp [hkey, hdecoded, bind, Except.bind] at hone
        | ok a =>
          obtain rfl : (k, a) = e := by simpa [hkey, hdecoded, bind, Except.bind] using hone
          exact ⟨text, hkey⟩
  · cases hread

end Members

theorem list_array {value : Decoder α} {toJson : α → Json} (hvalues : ∀ a, value (toJson a) = .ok a)
    (as : List α) : list value (.array (as.map toJson)) = .ok as := by
  rw [list]
  exact mapM_eq_ok_self fun a _ => hvalues a

theorem nullable_ofOption {value : Decoder α} {toJson : α → Json}
    (hvalues : ∀ a, value (toJson a) = .ok a) (hpresent : ∀ a, toJson a ≠ .null) (a? : Option α) :
    nullable value (ofOption toJson a?) = .ok a? := by
  cases a? with
  | none => rfl
  | some a =>
    rw [ofOption, nullable, hvalues a]
    · rfl
    · exact hpresent a

theorem document_of_read {value : Decoder α} {text : String} {j : Json} {a : α}
    (hread : Document.read text = ⟨j, false⟩) (hdecoded : value j = .ok a) :
    document value text = .ok a := by
  rw [document, hread]
  simp [hdecoded, bind, Except.bind]

section Records

variable {fields : List (Field σ)}

theorem find?_of_nodup (hdistinct : (fields.map (·.name)).Nodup)
    {f : Field σ} (h : f ∈ fields) : fields.find? (·.name == f.name) = some f := by
  induction fields with
  | nil => cases h
  | cons g fields ih =>
    obtain ⟨hfirst, hdistinct⟩ := List.nodup_cons.1 hdistinct
    rcases List.mem_cons.1 h with rfl | h
    · rw [List.find?_cons_of_pos (by simp)]
    · have hother : g.name ≠ f.name := fun hsame => hfirst (List.mem_map.2 ⟨f, h, hsame.symm⟩)
      rw [List.find?_cons_of_neg (by simpa using hother), ih hdistinct h]

/-- Fields read some values one after another and take a record from the first state to the
second. -/
inductive Reads : List (Field σ) → List Json → σ → σ → Prop
  | nil {s : σ} : Reads [] [] s s
  | cons {α : Type} {text : String} {value : Decoder α} {set : α → σ → σ} {v : Json} {a : α}
      {fs : List (Field σ)} {vs : List Json} {s s' : σ} (hone : value v = .ok a)
      (hrest : Reads fs vs (set a s) s') : Reads (field text value set :: fs) (v :: vs) s s'

theorem named_reread {all : List (Field σ)} {values : List Json} {s s' : σ}
    (hreads : Reads fields values s s') {seen : List String}
    (hknown : ∀ f ∈ fields, all.find? (·.name == f.name) = some f)
    (hfresh : ∀ f ∈ fields, f.name ∉ seen) (hdistinct : (fields.map (·.name)).Nodup) :
    named all seen ((fields.zip values).map fun w => (some w.1.name, w.2)) s = .ok s' := by
  induction hreads generalizing seen with
  | nil => rfl
  | @cons α text value set v a fs vs s s' hone _ ih =>
    obtain ⟨hfirst, hdistinct⟩ := List.nodup_cons.1 hdistinct
    have hlater : ∀ g ∈ fs, g.name ∉ text :: seen := by
      intro g hg
      rw [List.mem_cons, not_or]
      exact ⟨fun hsame => hfirst (List.mem_map.2 ⟨g, hg, hsame⟩),
        hfresh g (List.mem_cons_of_mem _ hg)⟩
    have hfound : all.find? (·.name == text) = some (field text value set) :=
      hknown _ List.mem_cons_self
    have hnotSeen : text ∉ seen := hfresh _ List.mem_cons_self
    have hunseen : seen.contains text = false := by simpa using hnotSeen
    have hread : (field text value set).read v s = .ok (set a s) := by
      show (value v).map (set · s) = _
      rw [hone]
      rfl
    rw [List.zip_cons_cons, List.map_cons]
    show named all seen ((some text, v) :: _) s = _
    rw [named, hfound]
    simp only [hunseen, hread]
    exact ih (fun g hg => hknown g (List.mem_cons_of_mem _ hg)) hlater hdistinct

/-- A record that was written with all its fields in order is read field by field. -/
theorem record_reread {members : List (String × Json)} {start s : σ}
    (hwritten : members.map (·.1) = fields.map (·.name)) (hdistinct : (fields.map (·.name)).Nodup)
    (hreads : Reads fields (members.map (·.2)) start s) :
    record fields start (.record members) = .ok s := by
  have hwhole : (fields.zip (members.map (·.2))).map (fun w => (w.1.name, w.2)) = members :=
    calc (fields.zip (members.map (·.2))).map (fun w => (w.1.name, w.2))
      _ = (fields.map (·.name)).zip (members.map (·.2)) := by rw [List.zip_map_left]; rfl
      _ = members := by rw [← hwritten, List.zip_map']; exact List.map_id members
  have htexts : members.map (fun m => (some m.1, m.2)) =
      (fields.zip (members.map (·.2))).map fun w => (some w.1.name, w.2) := by
    conv => lhs; rw [← hwhole, List.map_map]
    rfl
  rw [Json.record, record, htexts]
  exact named_reread hreads (fun f hf => find?_of_nodup hdistinct hf) (fun _ _ => List.not_mem_nil)
    hdistinct

theorem read_field {text : String} {value : Decoder α} {set : α → σ → σ} {v : Json} {s s' : σ}
    (hread : (field text value set).read v s = .ok s') : ∃ a, value v = .ok a ∧ set a s = s' :=
  map_eq_ok_iff.1 hread

theorem named_keeps {p : σ → Prop}
    (hkeeps : ∀ f ∈ fields, ∀ v s s', p s → f.read v s = .ok s' → p s')
    {members : List (Option String × Json)} {seen : List String} {s s' : σ} (hholds : p s)
    (hread : named fields seen members s = .ok s') : p s' := by
  induction members generalizing seen s with
  | nil =>
    cases hread
    exact hholds
  | cons m members ih =>
    obtain ⟨_ | k, v⟩ := m
    · cases hread
    · rw [named] at hread
      split at hread
      · split at hread
        · exact ih hholds hread
        · cases hread
      · next f hfound =>
        split at hread
        · cases hread
        · split at hread
          · cases hread
          · next s₁ hone =>
            exact ih (hkeeps f (List.mem_of_find?_eq_some hfound) v s s₁ hholds hone) hread

theorem positional_keeps {p : σ → Prop}
    (hkeeps : ∀ f ∈ fields, ∀ v s s', p s → f.read v s = .ok s' → p s')
    {items : List Json} {s s' : σ} (hholds : p s)
    (hread : positional fields items s = .ok s') : p s' := by
  induction items generalizing fields s with
  | nil =>
    rw [positional] at hread
    cases hread
    exact hholds
  | cons v items ih =>
    cases fields with
    | nil => cases hread
    | cons f fields =>
      rw [positional] at hread
      split at hread
      · cases hread
      · next s₁ hone =>
        exact ih (fun g hg => hkeeps g (List.mem_cons_of_mem f hg))
          (hkeeps f List.mem_cons_self v s s₁ hholds hone) hread

/-- What every field keeps holds of a record however it was written. -/
theorem record_keeps {p : σ → Prop}
    (hkeeps : ∀ f ∈ fields, ∀ v s s', p s → f.read v s = .ok s' → p s')
    {start s : σ} {j : Json} (hholds : p start) (hread : record fields start j = .ok s) : p s := by
  unfold record at hread
  split at hread
  · exact positional_keeps hkeeps hholds hread
  · exact named_keeps hkeeps hholds hread
  · cases hread

theorem completeRecord_of_record {complete : σ → Option α} {start s : σ} {j : Json} {a : α}
    (hread : record fields start j = .ok s) (hwhole : complete s = some a) :
    completeRecord fields start complete j = .ok a := by
  rw [completeRecord, hread]
  simp [bind, Except.bind, hwhole]

end Records

section Tags

theorem isPlain_record (members : List (String × Json)) :
    (Json.record members).isPlain = members.all (·.2.isPlain) := by
  have hinside : allMembers isPlainOutside (members.map fun m => (some m.1, m.2)) =
      members.all (·.2.isPlain) := by
    induction members with
    | nil => rfl
    | cons m members ih => rw [List.map_cons, allMembers, ih, List.all_cons]; rfl
  rw [Json.record, isPlain, Json.all, hinside]
  simp [isPlainOutside]

theorem depth_record_le {members : List (String × Json)} {n : Nat}
    (hshallow : ∀ m ∈ members, m.2.depth ≤ n) : (Json.record members).depth ≤ n + 1 := by
  have hinside : depthOfMembers (members.map fun m => (some m.1, m.2)) ≤ n := by
    induction members with
    | nil => exact Nat.zero_le n
    | cons m members ih =>
      rw [List.map_cons, depthOfMembers]
      exact Nat.max_le.2 ⟨hshallow m List.mem_cons_self,
        ih fun k hk => hshallow k (List.mem_cons_of_mem m hk)⟩
  rw [Json.record, depth]
  omega

/-- A variant that was written with its tag before its fields is read by its own decoder. -/
theorem tagged_record {variant : String → Option (Decoder α)} {tag : String} {d : Decoder α}
    (members : List (String × Json)) (hplain : ∀ m ∈ members, m.2.isPlain)
    (hshallow : ∀ m ∈ members, m.2.depth ≤ 125) (hfields : ∀ m ∈ members, m.1 ≠ tagName)
    (hknown : variant tag = some d) :
    tagged variant (.record ((tagName, .string tag) :: members)) = d (.record members) := by
  let j := Json.record ((tagName, .string tag) :: members)
  have hplainWhole : j.isPlain = true := by
    rw [isPlain_record, List.all_eq_true]
    intro m hm
    rcases List.mem_cons.1 hm with rfl | hm
    · rfl
    · exact hplain m hm
  have hshallowWhole : j.depth ≤ 125 + 1 := by
    apply depth_record_le
    intro m hm
    rcases List.mem_cons.1 hm with rfl | hm
    · exact Nat.zero_le _
    · exact hshallow m hm
  have haccepted : (!j.isPlain || decide (maxTaggedDepth < j.depth)) = false := by
    rw [hplainWhole, maxTaggedDepth]
    simpa using hshallowWhole
  have hnoTag : (members.map fun m => (some m.1, m.2)).filter (·.1 == some tagName) = [] := by
    apply List.filter_eq_nil_iff.2
    rintro _ hwritten
    obtain ⟨m, hm, rfl⟩ := List.mem_map.1 hwritten
    simpa using hfields m hm
  have hallFields : (members.map fun m => (some m.1, m.2)).filter (·.1 != some tagName) =
      members.map fun m => (some m.1, m.2) := by
    apply List.filter_eq_self.2
    rintro _ hwritten
    obtain ⟨m, hm, rfl⟩ := List.mem_map.1 hwritten
    simpa using hfields m hm
  show tagged variant j = _
  rw [tagged, haccepted]
  simp [j, Json.record, hnoTag, hallFields, hknown]

theorem allItems_strings (texts : List String) :
    allItems isPlainOutside (texts.map .string) = true := by
  induction texts with
  | nil => rfl
  | cons text texts ih =>
    rw [List.map_cons, allItems, ih]
    rfl

theorem depthOfItems_strings (texts : List String) : depthOfItems (texts.map .string) = 0 := by
  induction texts with
  | nil => rfl
  | cons text texts ih =>
    rw [List.map_cons, depthOfItems, ih]
    rfl

end Tags

end Decoder

end Json

end Muezzin
