/-
  Kademlia/Proofs/History.lean
  ============================
  **What the log of a run says about the peers that should be stored.**

  An entry can report that a peer was taken in (`accepted`) and that one was
  handed back (`returned`), and a mark or an edit rewrites the record of the peer
  that it names (`rewrite`).  From these alone a log determines which identifiers
  are held (`Held`) and what the record of each is (`Current`).

  Both are defined by cutting the log at one entry.  To follow a run they are
  needed entry by entry: `recorded` folds the log into what it says of one
  identifier, and `recorded_eq_some_iff` says that the two readings agree.
-/
import Kademlia.Proofs.Run
import Mathlib.Data.List.Induction

namespace Kademlia

/-! ### Entries -/

namespace Entry

def accepted : Entry → Option Peer
  | ⟨.insert p _, .inserted (.added _)⟩ => some p
  | ⟨.insert p _, .inserted (.replaced _ _)⟩ => some p
  | _ => none

/-- The peer that the table handed back, evicted or removed. -/
def returned : Entry → Option Peer
  | ⟨_, .inserted (.replaced _ evicted)⟩ => some evicted
  | ⟨_, .removed peer⟩ => peer
  | _ => none

/-- What the marks and edits of an entry make of a record. -/
def rewrite (e : Entry) (p : Peer) : Peer :=
  match e.operation with
  | .markReply id now => if p.id = id then p.markReply now else p
  | .markQuery id now => if p.id = id then p.markQuery now else p
  | .edit id plan => if p.id = id then p.editAll (plan p) else p
  | .insert _ _ => p
  | .remove _ => p

def isAdded (e : Entry) : Bool :=
  match e.answer with
  | .inserted (.added _) => true
  | _ => false

def isRemoval (e : Entry) : Bool :=
  match e.answer with
  | .removed (some _) => true
  | _ => false

@[simp] theorem id_rewrite (e : Entry) (p : Peer) : (e.rewrite p).id = p.id := by
  rcases e with ⟨operation, answer⟩
  cases operation with
  | insert q now => rfl
  | remove id => rfl
  | markReply id now =>
    simp only [rewrite]
    split <;> rfl
  | markQuery id now =>
    simp only [rewrite]
    split <;> rfl
  | edit id plan =>
    simp only [rewrite]
    split
    · exact p.id_editAll (plan p)
    · rfl

end Entry

/-! ### Reading a log by cutting it -/

/-- An identifier was taken in, and was not handed back since. -/
def Held (log : List Entry) (id : NodeId) : Prop :=
  ∃ before e after, log = before ++ e :: after ∧ (∃ p ∈ e.accepted, p.id = id) ∧
    ∀ f ∈ after, ∀ q ∈ f.returned, q.id ≠ id

/-- The record that all entries of a log make of a peer, one after the other. -/
def replay (log : List Entry) (p : Peer) : Peer :=
  log.foldl (fun q e => e.rewrite q) p

/-- A peer is what was last taken in under its identifier, with all marks and edits
    since then. -/
def Current (log : List Entry) (q : Peer) : Prop :=
  ∃ before e after p, log = before ++ e :: after ∧ e.accepted = some p ∧
    (∀ f ∈ after, ∀ p' ∈ f.accepted, p'.id ≠ p.id) ∧ q = replay after p

@[simp] theorem id_replay (log : List Entry) (p : Peer) : (replay log p).id = p.id := by
  induction log generalizing p with
  | nil => rfl
  | cons e rest ih =>
    rw [replay, List.foldl_cons]
    exact (ih (e.rewrite p)).trans (e.id_rewrite p)

theorem replay_append_singleton (log : List Entry) (e : Entry) (p : Peer) :
    replay (log ++ [e]) p = e.rewrite (replay log p) := by
  rw [replay, List.foldl_append]
  rfl

/-- A log that grew by one entry is cut there, or where the shorter log can be cut. -/
theorem cut_append_singleton {log before after : List Entry} {e f : Entry}
    (h : log ++ [e] = before ++ f :: after) :
    (before = log ∧ f = e ∧ after = []) ∨
      ∃ rest, after = rest ++ [e] ∧ log = before ++ f :: rest := by
  rcases List.eq_nil_or_concat after with rfl | ⟨rest, g, rfl⟩
  · left
    obtain ⟨hlog, he⟩ := List.append_inj' h rfl
    exact ⟨hlog.symm, (List.singleton_inj.mp he).symm, rfl⟩
  · right
    have hassoc : log ++ [e] = (before ++ f :: rest) ++ [g] := by simpa using h
    obtain ⟨hlog, he⟩ := List.append_inj' hassoc rfl
    obtain rfl := List.singleton_inj.mp he
    exact ⟨rest, by simp, hlog⟩

theorem not_held_nil (id : NodeId) : ¬ Held [] id := by
  rintro ⟨before, e, after, h, -⟩
  simp at h

theorem held_append_singleton {log : List Entry} {e : Entry} {id : NodeId} :
    Held (log ++ [e]) id ↔
      (∃ p ∈ e.accepted, p.id = id) ∨ (Held log id ∧ ∀ q ∈ e.returned, q.id ≠ id) := by
  constructor
  · rintro ⟨before, f, after, h, haccepted, hkept⟩
    rcases cut_append_singleton h with ⟨-, rfl, -⟩ | ⟨rest, rfl, hlog⟩
    · exact Or.inl haccepted
    · right
      refine ⟨⟨before, f, rest, hlog, haccepted, ?_⟩, ?_⟩
      · intro g hg
        exact hkept g (List.mem_append_left _ hg)
      · exact hkept e (by simp)
  · rintro (haccepted | ⟨⟨before, f, after, rfl, haccepted, hkept⟩, hreturned⟩)
    · exact ⟨log, e, [], rfl, haccepted, by simp⟩
    · refine ⟨before, f, after ++ [e], by simp, haccepted, ?_⟩
      intro g hg
      rcases List.mem_append.mp hg with hg | hg
      · exact hkept g hg
      · rw [List.mem_singleton.mp hg]
        exact hreturned

theorem current_append_singleton {log : List Entry} {e : Entry} {q : Peer} :
    Current (log ++ [e]) q ↔ e.accepted = some q ∨
      (∀ p ∈ e.accepted, p.id ≠ q.id) ∧ ∃ q₀, Current log q₀ ∧ q = e.rewrite q₀ := by
  constructor
  · rintro ⟨before, f, after, p, h, haccepted, hlast, rfl⟩
    rcases cut_append_singleton h with ⟨-, rfl, rfl⟩ | ⟨rest, rfl, hlog⟩
    · exact Or.inl haccepted
    · right
      refine ⟨?_, replay rest p, ⟨before, f, rest, p, hlog, haccepted, ?_, rfl⟩, ?_⟩
      · rw [id_replay]
        exact hlast e (by simp)
      · intro g hg
        exact hlast g (List.mem_append_left _ hg)
      · exact replay_append_singleton rest e p
  · rintro (haccepted | ⟨hother, q₀, ⟨before, f, after, p, rfl, haccepted, hlast, rfl⟩, rfl⟩)
    · exact ⟨log, e, [], q, rfl, haccepted, by simp, rfl⟩
    · refine ⟨before, f, after ++ [e], p, by simp, haccepted, ?_, ?_⟩
      · intro g hg
        rcases List.mem_append.mp hg with hg | hg
        · exact hlast g hg
        · rw [List.mem_singleton.mp hg]
          simpa using hother
      · exact (replay_append_singleton after e p).symm

theorem Held.exists_current {log : List Entry} {id : NodeId} (h : Held log id) :
    ∃ q, Current log q ∧ q.id = id := by
  induction log using List.reverseRecOn with
  | nil => exact absurd h (not_held_nil id)
  | append_singleton log e ih =>
    by_cases haccepted : ∃ p ∈ e.accepted, p.id = id
    · obtain ⟨p, hp, hid⟩ := haccepted
      exact ⟨p, current_append_singleton.mpr (Or.inl hp), hid⟩
    · rcases held_append_singleton.mp h with hp | ⟨hheld, -⟩
      · exact absurd hp haccepted
      · obtain ⟨q, hq, hid⟩ := ih hheld
        refine ⟨e.rewrite q, current_append_singleton.mpr (Or.inr ⟨?_, q, hq, rfl⟩), ?_⟩
        · intro p hp hpq
          exact haccepted ⟨p, hp, by rw [hpq, e.id_rewrite, hid]⟩
        · rw [e.id_rewrite, hid]

/-! ### Reading a log entry by entry -/

/-- What is recorded of an identifier after an entry, given what was before it. -/
def Entry.record (e : Entry) (id : NodeId) (before : Option Peer) : Option Peer :=
  if ∃ p ∈ e.accepted, p.id = id then e.accepted
  else if ∃ q ∈ e.returned, q.id = id then none
  else before.map e.rewrite

/-- An entry that reports neither an arrival nor a departure. -/
structure Entry.Quiet (e : Entry) : Prop where
  accepted_eq : e.accepted = none
  returned_eq : e.returned = none
  isAdded_eq : e.isAdded = false
  isRemoval_eq : e.isRemoval = false

theorem Entry.Quiet.record_eq {e : Entry} (h : e.Quiet) (id : NodeId) (before : Option Peer) :
    e.record id before = before.map e.rewrite := by
  rw [Entry.record, h.accepted_eq, h.returned_eq]
  simp

def recorded (log : List Entry) (id : NodeId) : Option Peer :=
  log.foldl (fun r e => e.record id r) none

theorem recorded_append_singleton (log : List Entry) (e : Entry) (id : NodeId) :
    recorded (log ++ [e]) id = e.record id (recorded log id) := by
  rw [recorded, List.foldl_append]
  rfl

/-- The fold finds who is held, and the current record. -/
theorem recorded_eq_some_iff {log : List Entry} {id : NodeId} {q : Peer} :
    recorded log id = some q ↔ q.id = id ∧ Held log id ∧ Current log q := by
  induction log using List.reverseRecOn generalizing q with
  | nil =>
    constructor
    · intro h
      simp [recorded] at h
    · rintro ⟨-, hheld, -⟩
      exact absurd hheld (not_held_nil id)
  | append_singleton log e ih =>
    rw [recorded_append_singleton, held_append_singleton, current_append_singleton, Entry.record]
    by_cases haccepted : ∃ p ∈ e.accepted, p.id = id
    · -- the identifier is taken in here, whatever was before
      rw [if_pos haccepted]
      obtain ⟨p, hp, hid⟩ := haccepted
      constructor
      · intro hq
        have hpq : p = q := Option.some.inj (hp.symm.trans hq)
        exact ⟨hpq ▸ hid, Or.inl ⟨p, hp, hid⟩, Or.inl hq⟩
      · rintro ⟨hqid, -, hq | ⟨hother, -⟩⟩
        · exact hq
        · exact absurd (hid.trans hqid.symm) (hother p hp)
    · rw [if_neg haccepted]
      by_cases hreturned : ∃ r ∈ e.returned, r.id = id
      · -- it is handed back
        rw [if_pos hreturned]
        obtain ⟨r, hr, hid⟩ := hreturned
        constructor
        · intro h
          cases h
        · rintro ⟨-, hp | ⟨-, hkept⟩, -⟩
          · exact absurd hp haccepted
          · exact absurd hid (hkept r hr)
      · -- it stays as it was, but for marks and edits
        rw [if_neg hreturned, Option.map_eq_some_iff]
        constructor
        · rintro ⟨q₀, hq₀, rfl⟩
          obtain ⟨hid, hheld, hcurrent⟩ := ih.mp hq₀
          refine ⟨(e.id_rewrite q₀).trans hid, Or.inr ⟨hheld, ?_⟩, Or.inr ⟨?_, q₀, hcurrent, rfl⟩⟩
          · intro r hr hrid
            exact hreturned ⟨r, hr, hrid⟩
          · intro p hp hpid
            exact haccepted ⟨p, hp, by rw [hpid, e.id_rewrite, hid]⟩
        · rintro ⟨hid, hp | ⟨hheld, -⟩, hq | ⟨-, q₀, hcurrent, rfl⟩⟩
          · exact absurd hp haccepted
          · exact absurd hp haccepted
          · exact absurd ⟨q, hq, hid⟩ haccepted
          · exact ⟨q₀, ih.mpr ⟨(e.id_rewrite q₀).symm.trans hid, hheld, hcurrent⟩, rfl⟩

end Kademlia
