/-
  Kademlia/Proofs/Accounts.lean
  =============================
  **A table is what its log says it is.**

  Looking an identifier up gives what the log of a run records of it: one
  operation changes the answer as its entry says (`accounted_perform`), and by
  induction a whole run does (`find?_run`).  So no peer and no update is lost,
  although splits move records between buckets and evictions overwrite slots.

  Clients that share a table do nothing but interleave whole operations, so what
  they leave behind is again the result of one run (`Only.act`).
-/
import Kademlia.Proofs.History
import Kademlia.Proofs.Invariant

namespace Kademlia.Table

/-! ### One operation and its entry -/

/-- What an operation does to a table is what its entry says. -/
structure Accounted (t : Table) (e : Entry) (t' : Table) : Prop where
  find_eq : ∀ id, t'.find? id = e.record id (t.find? id)
  returned_mem : ∀ q ∈ e.returned, q ∈ t.peers
  length_eq : t'.peers.length + (if e.isRemoval then 1 else 0) =
    t.peers.length + (if e.isAdded then 1 else 0)

section

variable {t t₁ t' : Table} {e : Entry} {i : Nat} {old new : Option Peer}

/-- A quiet entry that rewrites nothing goes with an operation that at most moves
    peers to other slots. -/
theorem accounted_of_perm (ht : t.WellFormed) (ht' : t'.WellFormed)
    (hperm : t'.peers.Perm t.peers) (hquiet : e.Quiet) (hrewrite : ∀ p, e.rewrite p = p) :
    Accounted t e t' where
  find_eq := by
    intro x
    have hkeep : e.rewrite = id := funext hrewrite
    rw [find?_congr ht ht' hperm, hquiet.record_eq, hkeep, Option.map_id]
    rfl
  returned_mem := by simp [hquiet.returned_eq]
  length_eq := by rw [hperm.length_eq, hquiet.isAdded_eq, hquiet.isRemoval_eq]

/-- An entry that takes one peer in, or hands one back, or both, goes with a change
    of one slot, possibly after peers were moved. -/
theorem accounted_of_slotChange (ht : t.WellFormed) (ht₁ : t₁.WellFormed) (ht' : t'.WellFormed)
    (hperm : t₁.peers.Perm t.peers) (h : t₁.SlotChange i old new t')
    (haccepted : e.accepted = new) (hreturned : e.returned = old)
    (hrewrite : ∀ p, e.rewrite p = p)
    (hcount : new.toList.length + (if e.isRemoval then 1 else 0) =
      old.toList.length + (if e.isAdded then 1 else 0)) : Accounted t e t' where
  find_eq := by
    intro x
    have hkeep : e.rewrite = id := funext hrewrite
    rw [h.find?_eq ht₁ ht', find?_congr ht ht₁ hperm, Entry.record, haccepted, hreturned, hkeep]
    simp
  returned_mem := by
    intro q hq
    rw [hreturned] at hq
    obtain rfl : old = some q := hq
    exact hperm.mem_iff.mp h.old_mem
  length_eq := by
    have hlen := h.length_peers
    have hlen' := hperm.length_eq
    omega

/-- A quiet entry that rewrites one record goes with the edit of that record in its
    slot. -/
theorem accounted_editOrKeep (ht : t.WellFormed) (id : NodeId) {f : Peer → Peer}
    (hf : ∀ q, (f q).id = q.id) (hquiet : e.Quiet)
    (hrewrite : ∀ p, e.rewrite p = if p.id = id then f p else p) :
    Accounted t e (t.editOrKeep id f) where
  find_eq := by
    intro x
    rw [hquiet.record_eq]
    rcases editOrKeep_cases ht id f with ⟨old, h, hid⟩ | ⟨hsame, habsent⟩
    · rw [h.find?_eq ht (wellFormed_editOrKeep ht id hf)]
      by_cases hx : x = id
      · subst hx
        have hfind : t.find? x = some old := (find?_eq_some_iff ht).mpr ⟨h.old_mem, hid⟩
        rw [if_pos ⟨f old, rfl, (hf old).trans hid⟩, hfind, Option.map_some, hrewrite, if_pos hid]
      · have hne : old.id ≠ x := fun h => hx (h.symm.trans hid)
        rw [if_neg, if_neg]
        · -- whoever is found under another identifier is left alone
          rcases hfind : t.find? x with _ | p
          · rfl
          · have hp := ((find?_eq_some_iff ht).mp hfind).2
            rw [Option.map_some, hrewrite, if_neg (by rw [hp]; exact hx)]
        · rintro ⟨p, ⟨⟩, hp⟩
          exact hne hp
        · rintro ⟨p, ⟨⟩, hp⟩
          exact hne ((hf old).symm.trans hp)
    · rw [hsame]
      rcases hfind : t.find? x with _ | p
      · rfl
      · have hp := habsent p ((find?_eq_some_iff ht).mp hfind).1
        rw [Option.map_some, hrewrite, if_neg hp]
  returned_mem := by simp [hquiet.returned_eq]
  length_eq := by
    rw [hquiet.isAdded_eq, hquiet.isRemoval_eq]
    rcases editOrKeep_cases ht id f with ⟨old, h, -⟩ | ⟨hsame, -⟩
    · simpa using h.length_peers
    · rw [hsame]

end

theorem Insertion.accounted {t : Table} {p : Peer} {now : Time} {u : Update Outcome}
    (h : Insertion t p now u) (ht : t.WellFormed) :
    Accounted t ⟨.insert p now, .inserted u.answer⟩ u.table := by
  have ht' := h.wellFormed ht
  have hkeep : ∀ q, Entry.rewrite ⟨.insert p now, .inserted u.answer⟩ q = q := fun _ => rfl
  cases h with
  | self => exact accounted_of_perm ht ht (.refl _) ⟨rfl, rfl, rfl, rfl⟩ hkeep
  | present => exact accounted_of_perm ht ht (.refl _) ⟨rfl, rfl, rfl, rfl⟩ hkeep
  | added _ _ h => exact accounted_of_slotChange ht ht ht' (.refl _) h rfl rfl hkeep rfl
  | replaced _ _ _ _ h => exact accounted_of_slotChange ht ht ht' (.refl _) h rfl rfl hkeep rfl
  | refused => exact accounted_of_perm ht ht (.refl _) ⟨rfl, rfl, rfl, rfl⟩ hkeep
  | addedAfterSplit _ _ _ hsplit _ h =>
    exact accounted_of_slotChange ht (hsplit.wellFormed ht) ht' hsplit.peers_perm h rfl rfl
      hkeep rfl
  | refusedAfterSplit _ _ _ hsplit _ =>
    exact accounted_of_perm ht ht' hsplit.peers_perm ⟨rfl, rfl, rfl, rfl⟩ hkeep

/-- **One operation.**  Its entry tells all that it does to a table in order. -/
theorem accounted_perform {t : Table} (ht : t.WellFormed) (operation : Operation) :
    Accounted t ⟨operation, (t.perform operation).answer⟩ (t.perform operation).table := by
  cases operation with
  | insert p now => exact (insert_cases ht p now).accounted ht
  | remove id =>
    rcases h : t.remove? id with _ | ⟨p, t'⟩
    · simp only [perform, h]
      exact accounted_of_perm ht ht (.refl _) ⟨rfl, rfl, rfl, rfl⟩ fun _ => rfl
    · simp only [perform, h]
      exact accounted_of_slotChange ht ht (wellFormed_remove? ht h) (.refl _)
        (remove?_eq_some h).1 rfl rfl (fun _ => rfl) rfl
  | markReply id now =>
    rw [table_perform_markReply]
    exact accounted_editOrKeep ht id (fun _ => rfl) ⟨rfl, rfl, rfl, rfl⟩ fun _ => rfl
  | markQuery id now =>
    rw [table_perform_markQuery]
    exact accounted_editOrKeep ht id (fun _ => rfl) ⟨rfl, rfl, rfl, rfl⟩ fun _ => rfl
  | edit id plan =>
    obtain ⟨found, hfound⟩ : ∃ found, (t.perform (.edit id plan)).answer = .edited found := by
      rcases h : t.edit? id (fun p => p.editAll (plan p)) with _ | ⟨p, t'⟩
      · exact ⟨none, by simp only [perform, h]⟩
      · exact ⟨some p, by simp only [perform, h]⟩
    rw [table_perform_edit, hfound]
    exact accounted_editOrKeep ht id (fun q => q.id_editAll (plan q)) ⟨rfl, rfl, rfl, rfl⟩
      fun _ => rfl

/-! ### A run and its log -/

theorem run_append_singleton (t : Table) (operations : List Operation) (operation : Operation) :
    t.run (operations ++ [operation]) =
      ((t.run operations).1 ++ [⟨operation, ((t.run operations).2.perform operation).answer⟩],
        ((t.run operations).2.perform operation).table) := by
  induction operations generalizing t with
  | nil => rfl
  | cons first rest ih =>
    rw [List.cons_append, run, ih]
    rfl

theorem find?_new (localId id : NodeId) : (new localId).find? id = none := by
  rcases h : (new localId).find? id with _ | q
  · rfl
  · have hq := ((find?_eq_some_iff (wellFormed_new localId)).mp h).1
    simp [peers, new] at hq

/-- **A whole run.**  Looking an identifier up gives what the log records of it. -/
theorem find?_run (localId : NodeId) (operations : List Operation) (id : NodeId) :
    ((new localId).run operations).2.find? id =
      recorded ((new localId).run operations).1 id := by
  induction operations using List.reverseRecOn with
  | nil => exact find?_new localId id
  | append_singleton operations operation ih =>
    have hwf := wellFormed_run (wellFormed_new localId) operations
    rw [run_append_singleton, recorded_append_singleton, ← ih]
    exact (accounted_perform hwf operation).find_eq id

/-- What a log has to say about a table for nothing to be lost or made up: who is
    stored, with which record, what was handed back, and how many there are. -/
structure Accounts (log : List Entry) (t : Table) : Prop where
  stored : ∀ id, (∃ q ∈ t.peers, q.id = id) ↔ Held log id
  current : ∀ q, q ∈ t.peers ↔ Held log q.id ∧ Current log q
  distinct : (t.peers.map Peer.id).Nodup
  returned : ∀ before e after, log = before ++ e :: after →
    ∀ q ∈ e.returned, Held before q.id ∧ Current before q
  size : t.size + log.countP Entry.isRemoval = log.countP Entry.isAdded

theorem mem_peers_run_iff (localId : NodeId) (operations : List Operation) (q : Peer) :
    q ∈ ((new localId).run operations).2.peers ↔
      Held ((new localId).run operations).1 q.id ∧
        Current ((new localId).run operations).1 q := by
  have hwf := wellFormed_run (wellFormed_new localId) operations
  have hfind : ((new localId).run operations).2.find? q.id = some q ↔
      q ∈ ((new localId).run operations).2.peers ∧ q.id = q.id := find?_eq_some_iff hwf
  rw [find?_run, recorded_eq_some_iff] at hfind
  tauto

theorem returned_run (localId : NodeId) (operations : List Operation) {before after : List Entry}
    {e : Entry} (h : ((new localId).run operations).1 = before ++ e :: after) {q : Peer}
    (hq : q ∈ e.returned) : Held before q.id ∧ Current before q := by
  induction operations using List.reverseRecOn generalizing after with
  | nil => simp [run] at h
  | append_singleton operations operation ih =>
    rw [run_append_singleton] at h
    rcases cut_append_singleton h with ⟨rfl, rfl, -⟩ | ⟨rest, -, hrest⟩
    · have hwf := wellFormed_run (wellFormed_new localId) operations
      exact (mem_peers_run_iff localId operations q).mp
        ((accounted_perform hwf operation).returned_mem q hq)
    · exact ih hrest

theorem length_peers_run (localId : NodeId) (operations : List Operation) :
    ((new localId).run operations).2.peers.length +
        ((new localId).run operations).1.countP Entry.isRemoval =
      ((new localId).run operations).1.countP Entry.isAdded := by
  induction operations using List.reverseRecOn with
  | nil => rfl
  | append_singleton operations operation ih =>
    have hwf := wellFormed_run (wellFormed_new localId) operations
    have hstep := (accounted_perform hwf operation).length_eq
    simp only [run_append_singleton, List.countP_append, List.countP_singleton]
    omega

theorem accounts_run (localId : NodeId) (operations : List Operation) :
    Accounts ((new localId).run operations).1 ((new localId).run operations).2 where
  stored := by
    intro id
    constructor
    · rintro ⟨q, hq, rfl⟩
      exact ((mem_peers_run_iff localId operations q).mp hq).1
    · intro hheld
      obtain ⟨q, hcurrent, rfl⟩ := hheld.exists_current
      exact ⟨q, (mem_peers_run_iff localId operations q).mpr ⟨hheld, hcurrent⟩, rfl⟩
  current := mem_peers_run_iff localId operations
  distinct := (wellFormed_run (wellFormed_new localId) operations).distinct
  returned := fun _ _ _ h _ hq => returned_run localId operations h hq
  size := by
    rw [(wellFormed_run (wellFormed_new localId) operations).size_eq]
    exact length_peers_run localId operations

end Kademlia.Table

/-! ### Clients of a shared table -/

namespace Kademlia.SharedTables

def Action.operation? : Action → Option Operation
  | .share _ => none
  | .perform _ operation => some operation

/-- Clients use none but the handles they were given, `n` of them to begin with. -/
def Issued : Nat → List Action → Prop
  | _, [] => True
  | n, .share handle :: rest => handle < n ∧ Issued (n + 1) rest
  | n, .perform handle _ :: rest => handle < n ∧ Issued n rest

instance decidableIssued : (n : Nat) → (actions : List Action) → Decidable (Issued n actions)
  | _, [] => inferInstanceAs (Decidable True)
  | n, .share handle :: rest =>
    have := decidableIssued (n + 1) rest
    inferInstanceAs (Decidable (handle < n ∧ _))
  | n, .perform handle _ :: rest =>
    have := decidableIssued n rest
    inferInstanceAs (Decidable (handle < n ∧ _))

/-- There is one table, and every handle leads to it. -/
structure Only (s : SharedTables) (t : Table) : Prop where
  tables_eq : s.tables = [t]
  handles_eq : ∀ handle ∈ s.handles, handle = 0

namespace Only

variable {s : SharedTables} {t : Table} {handle : Nat}

theorem getElem?_handles (h : s.Only t) (hlt : handle < s.handles.length) :
    s.handles[handle]? = some 0 := by
  rw [List.getElem?_eq_getElem hlt, h.handles_eq _ (List.getElem_mem hlt)]

theorem table?_eq (h : s.Only t) (hlt : handle < s.handles.length) : s.table? handle = some t := by
  rw [table?, h.getElem?_handles hlt, h.tables_eq]
  rfl

theorem put (h : s.Only t) (hlt : handle < s.handles.length) (t' : Table) :
    (s.put handle t').Only t' ∧ (s.put handle t').handles = s.handles := by
  rw [SharedTables.put, h.getElem?_handles hlt]
  refine ⟨⟨?_, h.handles_eq⟩, rfl⟩
  simp [h.tables_eq]

end Only

theorem only_single (t : Table) : (single t).Only t :=
  ⟨rfl, by simp [single]⟩

/-- Whatever the schedule, the clients leave behind the log and the table of a run
    of their operations in that order. -/
theorem Only.act {s : SharedTables} {t : Table} (h : s.Only t) {actions : List Action}
    (hissued : Issued s.handles.length actions) :
    (s.act actions).1 = (t.run (actions.filterMap Action.operation?)).1 ∧
      (s.act actions).2.Only (t.run (actions.filterMap Action.operation?)).2 ∧
      (s.act actions).2.handles.length =
        s.handles.length + actions.countP (·.operation?.isNone) := by
  induction actions generalizing s t with
  | nil => exact ⟨rfl, h, rfl⟩
  | cons action rest ih =>
    cases action with
    | share handle =>
      obtain ⟨hlt, hrest⟩ := hissued
      have hshare : s.share? handle =
          some (s.handles.length, { s with handles := s.handles ++ [0] }) := by
        rw [share?, h.getElem?_handles hlt]
        rfl
      have honly : ({ s with handles := s.handles ++ [0] } : SharedTables).Only t := by
        refine ⟨h.tables_eq, ?_⟩
        intro handle hmem
        rcases List.mem_append.mp hmem with hmem | hmem
        · exact h.handles_eq handle hmem
        · exact List.mem_singleton.mp hmem
      obtain ⟨hlog, htable, hcount⟩ := ih honly (by simpa using hrest)
      simp only [SharedTables.act, hshare]
      refine ⟨hlog, htable, hcount.trans ?_⟩
      simp [Action.operation?]
      omega
    | perform handle operation =>
      obtain ⟨hlt, hrest⟩ := hissued
      obtain ⟨honly, hhandles⟩ := h.put hlt (t.perform operation).table
      have hperform : s.perform handle (fun t => t.perform operation) =
          some ((t.perform operation).answer, s.put handle (t.perform operation).table) := by
        rw [SharedTables.perform, h.table?_eq hlt]
        rfl
      obtain ⟨hlog, htable, hcount⟩ := ih honly (by rwa [hhandles])
      simp only [SharedTables.act, hperform]
      refine ⟨congrArg _ hlog, htable, hcount.trans ?_⟩
      simp [Action.operation?, hhandles]

end Kademlia.SharedTables

namespace Kademlia.Table

open SharedTables

/-- **Nothing is lost and nothing is duplicated.**  Whatever is done to a table that
    began without peers, its log accounts for it.  If several clients do it through
    handles on the one table, each handle leads to what a run of their operations
    in that order leaves behind. -/
theorem nothing_lost (localId : NodeId) :
    (∀ operations : List Operation,
      Accounts ((new localId).run operations).1 ((new localId).run operations).2) ∧
    ∀ actions : List Action, Issued 1 actions →
      let shared := (single (new localId)).act actions
      let sequential := (new localId).run (actions.filterMap Action.operation?)
      shared.1 = sequential.1 ∧
        shared.2.handles.length = 1 + actions.countP (·.operation?.isNone) ∧
        ∀ handle < shared.2.handles.length, shared.2.table? handle = some sequential.2 := by
  refine ⟨accounts_run localId, ?_⟩
  intro actions hissued
  obtain ⟨hlog, honly, hcount⟩ := (only_single (new localId)).act hissued
  exact ⟨hlog, hcount, fun handle hlt => honly.table?_eq hlt⟩

/-- Where the sixth neighbour moves. -/
def relocation : Address :=
  .v6 (Bytes.fill 16 1) 6881 0 2

/-- Nine neighbours arrive, which splits the table; a second client then records a
    reply and a change of address, and the first removes a peer that was moved to the new
    bucket and queries the one at the new address. -/
def visits : List Action :=
  (List.range 9).map (fun k => .perform 0 (.insert (neighbour k) 0)) ++
    [.share 0, .perform 1 (.markReply (neighbour 3).id 5),
      .perform 1 (.edit (neighbour 5).id fun _ => [.setAddress relocation]),
      .perform 0 (.remove (neighbour 4).id), .perform 0 (.markQuery (neighbour 5).id 6)]

set_option maxRecDepth 4000 in
theorem nothing_lost_visits :
    Issued 1 visits ∧ ((single (new .zero)).act visits).2.handles.length = 2 ∧
      ((single (new .zero)).act visits).2.table? 1 =
        some ((new .zero).run (visits.filterMap Action.operation?)).2 ∧
      ((new .zero).run (visits.filterMap Action.operation?)).2.size = 8 ∧
      ((new .zero).run (visits.filterMap Action.operation?)).2.find? (neighbour 5).id =
        some (((neighbour 5).setAddress relocation).markQuery 6) ∧
      Accounts ((new .zero).run (visits.filterMap Action.operation?)).1
        ((new .zero).run (visits.filterMap Action.operation?)).2 := by
  have hissued : Issued 1 visits := by decide
  obtain ⟨-, hcount, hhandles⟩ := (nothing_lost .zero).2 visits hissued
  have htwo : ((single (new .zero)).act visits).2.handles.length = 2 := hcount.trans (by decide)
  exact ⟨hissued, htwo, hhandles 1 (by rw [htwo]; decide), by decide, by decide,
    (nothing_lost .zero).1 (visits.filterMap Action.operation?)⟩

end Kademlia.Table
