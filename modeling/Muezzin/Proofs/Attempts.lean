/-!
# What follows from a success

A computation that may fail is put together from smaller ones, one after another, by changing the
result or the error, or over a list. If the whole succeeds then so does every part of it, and the
result is made of theirs.
-/

namespace Muezzin

section Steps

variable {ε ε' α β : Type}

theorem bind_eq_ok_iff {x : Except ε α} {f : α → Except ε β} {b : β} :
    x >>= f = .ok b ↔ ∃ a, x = .ok a ∧ f a = .ok b := by
  cases x <;> simp [bind, Except.bind]

theorem then_eq_ok_iff {x : Except ε Unit} {y : Except ε β} {b : β} :
    (do x; y) = .ok b ↔ x = .ok () ∧ y = .ok b := by
  cases x <;> simp [bind, Except.bind]

theorem mapError_eq_ok_iff {x : Except ε α} {g : ε → ε'} {a : α} :
    x.mapError g = .ok a ↔ x = .ok a := by
  cases x with
  | error e => exact ⟨nofun, nofun⟩
  | ok b =>
    have hmap : (Except.ok b : Except ε α).mapError g = .ok b := rfl
    simp [hmap]

theorem map_eq_ok_iff {x : Except ε α} {g : α → β} {b : β} :
    x.map g = .ok b ↔ ∃ a, x = .ok a ∧ g a = b := by
  cases x <;> simp [Except.map]

theorem exists_map_eq_ok_iff {x : Except ε α} {g : α → β} :
    (∃ b, x.map g = .ok b) ↔ ∃ a, x = .ok a := by
  cases x <;> simp [Except.map]

end Steps

section Lists

variable {ε α β : Type} {f : α → Except ε β}

theorem exists_mapM_eq_ok {as : List α} (heach : ∀ a ∈ as, ∃ b, f a = .ok b) :
    ∃ bs, as.mapM f = .ok bs := by
  induction as with
  | nil => exact ⟨[], rfl⟩
  | cons a as ih =>
    obtain ⟨b, hfirst⟩ := heach a List.mem_cons_self
    obtain ⟨bs, hrest⟩ := ih fun c hc => heach c (List.mem_cons_of_mem a hc)
    exact ⟨b :: bs, by rw [List.mapM_cons, hfirst, hrest]; rfl⟩

theorem mem_of_mapM_eq_ok {as : List α} {bs : List β} (hconverted : as.mapM f = .ok bs) {b : β} :
    b ∈ bs ↔ ∃ a ∈ as, f a = .ok b := by
  induction as generalizing bs with
  | nil =>
    obtain rfl : bs = [] := by simpa [pure, Except.pure] using hconverted.symm
    simp
  | cons a as ih =>
    rw [List.mapM_cons] at hconverted
    obtain ⟨c, hfirst, hconverted⟩ := bind_eq_ok_iff.1 hconverted
    obtain ⟨cs, hrest, hconverted⟩ := bind_eq_ok_iff.1 hconverted
    obtain rfl : bs = c :: cs := by simpa [pure, Except.pure] using hconverted.symm
    simp [ih hrest, hfirst, eq_comm]

theorem mapM_eq_ok_self {write : β → α} {bs : List β} (heach : ∀ b ∈ bs, f (write b) = .ok b) :
    (bs.map write).mapM f = .ok bs := by
  induction bs with
  | nil => rfl
  | cons b bs ih =>
    rw [List.map_cons, List.mapM_cons, heach b List.mem_cons_self,
      ih fun c hc => heach c (List.mem_cons_of_mem b hc)]
    rfl

end Lists

end Muezzin
