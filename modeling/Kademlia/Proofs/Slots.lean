/-
  Kademlia/Proofs/Slots.lean
  ==========================
  **What the searches of a row find.**

  Each search of a row is characterised by cutting the row at the slot it
  answers with: `row = before ++ slot :: after`, where nothing in `before` would
  have done.  A change to that slot then leaves `before` and `after` alone, and
  what it does to the peers of the row can be read off (`occupants_split`).
-/
import Kademlia.Bucket.Slots
import Mathlib.Tactic.Common

namespace Kademlia.Slots

/-! ### Occupants -/

@[simp] theorem occupants_nil : occupants [] = [] := rfl

@[simp] theorem occupants_cons_none (rest : Slots) :
    occupants (none :: rest) = occupants rest := rfl

@[simp] theorem occupants_cons_some (p : Peer) (rest : Slots) :
    occupants (some p :: rest) = p :: occupants rest := rfl

@[simp] theorem occupants_append (row row' : Slots) :
    occupants (row ++ row') = occupants row ++ occupants row' := by
  simp [occupants]

@[simp] theorem occupants_map_some (ps : List Peer) : occupants (ps.map some) = ps := by
  induction ps with
  | nil => rfl
  | cons p ps ih => rw [List.map_cons, occupants_cons_some, ih]

@[simp] theorem occupants_replicate_none (n : Nat) :
    occupants (List.replicate n none) = [] := by
  induction n with
  | zero => rfl
  | succ n ih => rw [List.replicate_succ, occupants_cons_none, ih]

@[simp] theorem mem_occupants {row : Slots} {p : Peer} : p ∈ occupants row ↔ some p ∈ row := by
  simp [occupants]

def occupied (row : Slots) : Nat :=
  row.countP Option.isSome

@[simp] theorem occupied_cons_none (rest : Slots) : occupied (none :: rest) = occupied rest :=
  List.countP_cons_of_neg Bool.false_ne_true

@[simp] theorem occupied_cons_some (p : Peer) (rest : Slots) :
    occupied (some p :: rest) = occupied rest + 1 :=
  List.countP_cons_of_pos rfl

theorem length_occupants (row : Slots) : (occupants row).length = occupied row := by
  induction row with
  | nil => rfl
  | cons slot rest ih => cases slot <;> simp_all [occupied]

theorem occupied_le (row : Slots) : occupied row ≤ row.length :=
  List.countP_le_length

/-- A row without free slots is made up of its occupants. -/
theorem eq_map_some {row : Slots} (h : (occupants row).length = row.length) :
    row = (occupants row).map some := by
  induction row with
  | nil => rfl
  | cons slot rest ih =>
    cases slot with
    | none =>
      have hle := occupied_le rest
      simp only [occupants_cons_none, List.length_cons, length_occupants] at h
      omega
    | some p =>
      simp only [occupants_cons_some, List.length_cons, Nat.add_right_cancel_iff] at h
      rw [occupants_cons_some, List.map_cons, ← ih h]

theorem set_split (before after : Slots) (old new : Option Peer) :
    (before ++ old :: after).set before.length new = before ++ new :: after := by
  simp

/-! ### The first free slot -/

theorem firstFree?_eq_none {row : Slots} (h : firstFree? row = none) :
    occupied row = row.length := by
  induction row with
  | nil => rfl
  | cons slot rest ih =>
    cases slot with
    | none => simp [firstFree?] at h
    | some p => simp_all [firstFree?, occupied]

/-- The first free slot lies behind occupied ones. -/
theorem firstFree?_eq_some {row : Slots} {i : Nat} (h : firstFree? row = some i) :
    ∃ (ps : List Peer) (after : Slots),
      row = ps.map some ++ none :: after ∧ i = ps.length := by
  induction row generalizing i with
  | nil => simp [firstFree?] at h
  | cons slot rest ih =>
    cases slot with
    | none =>
      refine ⟨[], rest, rfl, ?_⟩
      simpa [firstFree?] using h.symm
    | some p =>
      simp only [firstFree?, Option.map_eq_some_iff] at h
      obtain ⟨j, hj, rfl⟩ := h
      obtain ⟨ps, after, rfl, rfl⟩ := ih hj
      exact ⟨p :: ps, after, rfl, rfl⟩

/-- The slot answered with is free, and none before it is. -/
theorem firstFree?_place {row : Slots} {i : Nat} (h : firstFree? row = some i) :
    row[i]? = some none ∧ ∀ k < i, row[k]? ≠ some none := by
  obtain ⟨ps, after, rfl, rfl⟩ := firstFree?_eq_some h
  refine ⟨by simp, ?_⟩
  intro k hk
  have hlt : k < (ps.map some).length := by simpa using hk
  rw [List.getElem?_append_left hlt]
  simp

/-! ### The first fitting peer -/

theorem first?_eq_none {test : Peer → Bool} {row : Slots} (h : first? test row = none) :
    ∀ p ∈ occupants row, test p = false := by
  induction row with
  | nil => simp
  | cons slot rest ih =>
    cases slot with
    | none =>
      simp only [first?, Option.map_eq_none_iff] at h
      simpa using ih h
    | some p =>
      simp only [first?] at h
      by_cases hp : test p = true
      · simp [hp] at h
      · simp only [hp, Bool.false_eq_true, if_false, Option.map_eq_none_iff] at h
        intro q hq
        rcases List.mem_cons.mp hq with rfl | hq
        · simpa using hp
        · exact ih h q hq

/-- The search answers with the first peer that passes the test, and its slot. -/
theorem first?_eq_some {test : Peer → Bool} {row : Slots} {i : Nat} {p : Peer}
    (h : first? test row = some (i, p)) :
    ∃ before after, row = before ++ some p :: after ∧ i = before.length ∧
      test p = true ∧ ∀ q ∈ occupants before, test q = false := by
  induction row generalizing i with
  | nil => simp [first?] at h
  | cons slot rest ih =>
    cases slot with
    | none =>
      simp only [first?, Option.map_eq_some_iff, Prod.exists, Prod.mk.injEq] at h
      obtain ⟨j, q, hj, rfl, rfl⟩ := h
      obtain ⟨before, after, rfl, rfl, htest, hbefore⟩ := ih hj
      exact ⟨none :: before, after, rfl, rfl, htest, by simpa using hbefore⟩
    | some q =>
      simp only [first?] at h
      by_cases hq : test q = true
      · rw [if_pos hq] at h
        obtain ⟨rfl, rfl⟩ : 0 = i ∧ q = p := by simpa using h
        exact ⟨[], rest, rfl, rfl, hq, by simp⟩
      · rw [if_neg hq] at h
        simp only [Option.map_eq_some_iff, Prod.exists, Prod.mk.injEq] at h
        obtain ⟨j, r, hj, rfl, rfl⟩ := h
        obtain ⟨before, after, rfl, rfl, htest, hbefore⟩ := ih hj
        refine ⟨some q :: before, after, rfl, rfl, htest, ?_⟩
        intro x hx
        rcases List.mem_cons.mp hx with rfl | hx
        · simpa using hq
        · exact hbefore x hx

/-- The slot answered with holds the peer, and whoever else passes the test comes
    after it. -/
theorem first?_place {test : Peer → Bool} {row : Slots} {i : Nat} {p : Peer}
    (h : first? test row = some (i, p)) :
    row[i]? = some (some p) ∧ test p = true ∧
      ∀ k q, row[k]? = some (some q) → test q = true → i ≤ k := by
  obtain ⟨before, after, rfl, rfl, htest, hbefore⟩ := first?_eq_some h
  refine ⟨by simp, htest, ?_⟩
  intro k q hk hq
  by_contra hlt
  have hlt : k < before.length := Nat.lt_of_not_le hlt
  rw [List.getElem?_append_left hlt] at hk
  have hfails := hbefore q (mem_occupants.mpr (List.mem_of_getElem? hk))
  rw [hq] at hfails
  cases hfails

/-- Without its slot, what is found is what a search of the occupants finds. -/
theorem map_snd_first? (test : Peer → Bool) (row : Slots) :
    (first? test row).map Prod.snd = (occupants row).find? test := by
  induction row with
  | nil => rfl
  | cons slot rest ih =>
    cases slot with
    | none => simpa [first?, Function.comp_def] using ih
    | some p =>
      by_cases hp : test p = true
      · simp [first?, hp]
      · simpa [first?, hp, Function.comp_def] using ih

/-! ### The least recently active peer -/

theorem leastActive?_eq_none {test : Peer → Bool} {row : Slots}
    (h : leastActive? test row = none) : ∀ p ∈ occupants row, test p = false := by
  induction row with
  | nil => simp
  | cons slot rest ih =>
    cases slot with
    | none =>
      simp only [leastActive?, Option.map_eq_none_iff] at h
      simpa using ih h
    | some p =>
      rcases hrest : leastActive? test rest with _ | ⟨j, q⟩
      · simp only [leastActive?, hrest, Option.map_none, ite_eq_right_iff, reduceCtorEq,
          imp_false, Bool.not_eq_true] at h
        intro q hq
        rcases List.mem_cons.mp hq with rfl | hq
        · exact h
        · exact ih hrest q hq
      · simp only [leastActive?, hrest, Option.map_some] at h
        split at h <;> simp at h

/-- The search answers with a peer that passes the test, and its slot. -/
theorem leastActive?_eq_some {test : Peer → Bool} {row : Slots} {i : Nat} {p : Peer}
    (h : leastActive? test row = some (i, p)) :
    ∃ before after, row = before ++ some p :: after ∧ i = before.length ∧ test p = true := by
  induction row generalizing i p with
  | nil => simp [leastActive?] at h
  | cons slot rest ih =>
    cases slot with
    | none =>
      simp only [leastActive?, Option.map_eq_some_iff, Prod.exists, Prod.mk.injEq] at h
      obtain ⟨j, q, hj, rfl, rfl⟩ := h
      obtain ⟨before, after, rfl, rfl, htest⟩ := ih hj
      exact ⟨none :: before, after, rfl, rfl, htest⟩
    | some q =>
      rcases hrest : leastActive? test rest with _ | ⟨j, r⟩
      · simp only [leastActive?, hrest, Option.map_none] at h
        split at h
        · obtain ⟨rfl, rfl⟩ : 0 = i ∧ q = p := by simpa using h
          exact ⟨[], rest, rfl, rfl, ‹_›⟩
        · simp at h
      · obtain ⟨before, after, rfl, rfl, htest⟩ := ih hrest
        simp only [leastActive?, hrest, Option.map_some] at h
        split at h
        · obtain ⟨rfl, rfl⟩ : 0 = i ∧ q = p := by simpa using h
          refine ⟨[], _, rfl, rfl, ?_⟩
          simp_all
        · obtain ⟨rfl, rfl⟩ : before.length + 1 = i ∧ r = p := by simpa using h
          exact ⟨some q :: before, after, rfl, rfl, htest⟩

/-! ### Emptied rows -/

/-- A row after the peers that pass a test have left their slots. -/
def vacate (leaves : Peer → Bool) (row : Slots) : Slots :=
  row.map (Option.filter fun p => !leaves p)

@[simp] theorem vacate_nil (leaves : Peer → Bool) : vacate leaves [] = [] := rfl

@[simp] theorem vacate_cons_none (leaves : Peer → Bool) (rest : Slots) :
    vacate leaves (none :: rest) = none :: vacate leaves rest := rfl

theorem vacate_cons_of_leaves {leaves : Peer → Bool} {p : Peer} (h : leaves p = true)
    (rest : Slots) : vacate leaves (some p :: rest) = none :: vacate leaves rest := by
  simp [vacate, Option.filter, h]

theorem vacate_cons_of_stays {leaves : Peer → Bool} {p : Peer} (h : leaves p = false)
    (rest : Slots) : vacate leaves (some p :: rest) = some p :: vacate leaves rest := by
  simp [vacate, Option.filter, h]

theorem occupants_vacate (leaves : Peer → Bool) (row : Slots) :
    occupants (vacate leaves row) = (occupants row).filter fun p => !leaves p := by
  induction row with
  | nil => rfl
  | cons slot rest ih =>
    cases slot with
    | none => simpa using ih
    | some p =>
      rcases h : leaves p with _ | _
      · rw [vacate_cons_of_stays h]
        simp [h, ih]
      · rw [vacate_cons_of_leaves h]
        simp [h, ih]

theorem vacate_of_no_leaver {leaves : Peer → Bool} {row : Slots}
    (h : ∀ p ∈ occupants row, leaves p = false) : vacate leaves row = row := by
  induction row with
  | nil => rfl
  | cons slot rest ih =>
    cases slot with
    | none => rw [vacate_cons_none, ih (by simpa using h)]
    | some p =>
      rw [occupants_cons_some, List.forall_mem_cons] at h
      rw [vacate_cons_of_stays h.1, ih h.2]

theorem vacate_of_all_leave {leaves : Peer → Bool} {row : Slots}
    (h : ∀ p ∈ occupants row, leaves p = true) :
    vacate leaves row = List.replicate row.length none := by
  induction row with
  | nil => rfl
  | cons slot rest ih =>
    cases slot with
    | none =>
      simp only [occupants_cons_none] at h
      simp only [vacate_cons_none, ih h, List.length_cons, List.replicate_succ]
    | some p =>
      simp only [occupants_cons_some, List.forall_mem_cons] at h
      simp only [vacate_cons_of_leaves h.1, ih h.2, List.length_cons, List.replicate_succ]

/-! ### Visits -/

/-- A visit that keeps what `f` sees of every peer keeps what `f` sees of a row. -/
theorem map_occupants_sweep {σ α : Type} (visit : σ → Peer → σ × Peer) (f : Peer → α)
    (hvisit : ∀ s p, f (visit s p).2 = f p) (state : σ) (row : Slots) :
    (occupants (sweep visit state row).2).map f = (occupants row).map f := by
  induction row generalizing state with
  | nil => rfl
  | cons slot rest ih =>
    cases slot with
    | none => simpa [sweep] using ih state
    | some p => simp [sweep, hvisit, ih]

theorem occupied_sweep {σ : Type} (visit : σ → Peer → σ × Peer) (state : σ) (row : Slots) :
    occupied (sweep visit state row).2 = occupied row := by
  rw [← length_occupants, ← length_occupants]
  have h := congrArg List.length
    (map_occupants_sweep visit (fun _ => ()) (fun _ _ => rfl) state row)
  simpa using h

end Kademlia.Slots
