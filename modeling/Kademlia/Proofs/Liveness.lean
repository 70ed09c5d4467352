/-
  Kademlia/Proofs/Liveness.lean
  =============================
  **The liveness of a peer is a function of its whole history.**

  A peer keeps two times and a counter of one byte.  What they are after any marks and
  changes of address is read off the list of these: the times of the last reply and of the
  last query, and the number of queries since the last reply, of which the counter shows
  255 at most (`Peer.Remembers`).  One more mark keeps this (`Peer.Remembers.apply`),
  wherever its time lies, and so does a history of any length.

  The address is the last one that was set (`Peer.address_editAll`); no mark changes it.

  `verdict` judges a history without the record.  Two is less than 255, so that a counter
  that has come to its end judges as the number itself does
  (`Peer.Remembers.status_eq`).
-/
import Kademlia.Proofs.Run
import Mathlib.Data.List.DropRight

namespace Kademlia

/-! ### Histories -/

namespace Edit

def address? : Edit → Option Address
  | .setAddress address => some address
  | _ => none

def reply? : Edit → Option Time
  | .markReply now => some now
  | _ => none

def query? : Edit → Option Time
  | .markQuery now => some now
  | _ => none

/-- The addresses, in the order in which they were set. -/
def addresses (history : List Edit) : List Address :=
  history.filterMap address?

/-- The times of the replies, in the order in which they were marked. -/
def replies (history : List Edit) : List Time :=
  history.filterMap reply?

/-- The times of the queries, in the order in which they were marked. -/
def queries (history : List Edit) : List Time :=
  history.filterMap query?

/-- The end of a history that is behind the last reply, all of it if there was none. -/
def sinceReply (history : List Edit) : List Edit :=
  history.rtakeWhile fun edit => edit.reply?.isNone

def unanswered (history : List Edit) : Nat :=
  (queries (sinceReply history)).length

/-- What a history says of a peer: good for the respite after a reply, and after a query
    if there ever was a reply; later questionable, unknown if there never was one, and bad
    with two unanswered queries. -/
def verdict (history : List Edit) (now : Time) : Status :=
  match (replies history).getLast? with
  | none => if (queries history).length < 2 then .unknown else .bad
  | some reply =>
    if now - reply < respite ∨ ∃ query ∈ (queries history).getLast?, now - query < respite then
      .good
    else if unanswered history < 2 then .questionable
    else .bad

/-! ### One more edit -/

/-- The last of a kind is the new one, if it is of that kind. -/
theorem getLast?_filterMap_append {α : Type} (kind : Edit → Option α) (history : List Edit)
    (edit : Edit) :
    ((history ++ [edit]).filterMap kind).getLast? =
      (kind edit).or (history.filterMap kind).getLast? := by
  cases hkind : kind edit with
  | none => simp [hkind]
  | some a => simp [hkind]

theorem unanswered_append_of_reply (history : List Edit) {edit : Edit}
    (h : edit.reply?.isNone = false) : unanswered (history ++ [edit]) = 0 := by
  have hsince : sinceReply (history ++ [edit]) = [] :=
    List.rtakeWhile_concat_neg _ _ edit (by simp [h])
  simp [unanswered, hsince, queries]

theorem unanswered_append_of_no_reply (history : List Edit) {edit : Edit}
    (h : edit.reply?.isNone = true) :
    unanswered (history ++ [edit]) = unanswered history + (queries [edit]).length := by
  have hsince : sinceReply (history ++ [edit]) = sinceReply history ++ [edit] :=
    List.rtakeWhile_concat_pos _ _ edit h
  simp [unanswered, hsince, queries]

/-- As long as there is no reply, no query is answered. -/
theorem unanswered_of_replies_eq_nil {history : List Edit} (h : replies history = []) :
    unanswered history = (queries history).length := by
  have hall : ∀ edit ∈ history, edit.reply?.isNone = true := by
    simpa [replies, List.filterMap_eq_nil_iff] using h
  have hsince : sinceReply history = history := List.rtakeWhile_eq_self_iff.mpr hall
  rw [unanswered, hsince]

/-- A bad peer that never replied stays bad until it does. -/
theorem verdict_append_of_bad {history more : List Edit} {now : Time}
    (hsilent : replies history = []) (hmore : replies more = [])
    (hbad : verdict history now = .bad) (later : Time) :
    verdict (history ++ more) later = .bad := by
  have hreplies : replies (history ++ more) = [] := by
    simpa [replies] using And.intro hsilent hmore
  have hqueries : queries (history ++ more) = queries history ++ queries more :=
    List.filterMap_append
  have hmany : ¬ (queries history).length < 2 := by
    intro hfew
    simp [verdict, hsilent, hfew] at hbad
  simp only [verdict, hreplies, hqueries, List.length_append, List.getLast?_nil]
  exact if_neg fun hfew => hmany ((Nat.le_add_right _ _).trans_lt hfew)

end Edit

namespace Peer

open Edit

variable {p : Peer} {history : List Edit}

/-! ### What a record keeps of a history -/

structure Remembers (p : Peer) (history : List Edit) : Prop where
  lastReply_eq : p.lastReply = (replies history).getLast?
  lastQuery_eq : p.lastQuery = (queries history).getLast?
  pending_eq : p.pending.toNat = min 255 (unanswered history)

theorem remembers_new (id : NodeId) (address : Address) : (new id address).Remembers [] :=
  ⟨rfl, rfl, rfl⟩

/-- The counter goes up by one and stops at its end. -/
theorem toNat_pending_markQuery (p : Peer) (now : Time) :
    (p.markQuery now).pending.toNat = min 255 (p.pending.toNat + 1) := by
  have hle : p.pending.toNat ≤ 255 := Nat.le_of_lt_succ p.pending.toNat_lt
  by_cases hfull : p.pending = 255
  · simp [markQuery, hfull]
  · have hne : p.pending.toNat ≠ 255 := fun heq => hfull (UInt8.toNat_inj.mp heq)
    have hlt : p.pending.toNat + 1 ≤ 255 := Nat.lt_of_le_of_ne hle hne
    have hnowrap : (p.pending.toNat + 1) % 256 = p.pending.toNat + 1 :=
      Nat.mod_eq_of_lt (Nat.lt_succ_of_le hlt)
    simp [markQuery, hfull, UInt8.toNat_add, hnowrap, hlt]

theorem address_apply (edit : Edit) (p : Peer) :
    (edit.apply p).address = edit.address?.getD p.address := by
  cases edit with
  | setAddress address => exact p.setAddress_address address
  | markReply now => exact p.markReply_address now
  | markQuery now => exact p.markQuery_address now

theorem lastReply_apply (edit : Edit) (p : Peer) :
    (edit.apply p).lastReply = edit.reply?.or p.lastReply := by
  cases edit <;> rfl

theorem lastQuery_apply (edit : Edit) (p : Peer) :
    (edit.apply p).lastQuery = edit.query?.or p.lastQuery := by
  cases edit <;> rfl

theorem Remembers.apply (h : p.Remembers history) (edit : Edit) :
    (edit.apply p).Remembers (history ++ [edit]) := by
  refine ⟨?_, ?_, ?_⟩
  · rw [lastReply_apply, h.lastReply_eq]
    exact (getLast?_filterMap_append reply? history edit).symm
  · rw [lastQuery_apply, h.lastQuery_eq]
    exact (getLast?_filterMap_append query? history edit).symm
  · cases edit with
    | setAddress address =>
      rw [unanswered_append_of_no_reply history rfl]
      exact h.pending_eq
    | markReply now =>
      rw [unanswered_append_of_reply history rfl]
      rfl
    | markQuery now =>
      have hmore : unanswered (history ++ [.markQuery now]) = unanswered history + 1 :=
        unanswered_append_of_no_reply history rfl
      have hcount := toNat_pending_markQuery p now
      rw [h.pending_eq] at hcount
      rw [hmore, Edit.apply, hcount]
      omega

theorem editAll_append (p : Peer) (edits more : List Edit) :
    p.editAll (edits ++ more) = (p.editAll edits).editAll more :=
  List.foldl_append

theorem remembers_editAll (id : NodeId) (address : Address) (history : List Edit) :
    ((new id address).editAll history).Remembers history := by
  induction history using List.reverseRecOn with
  | nil => exact remembers_new id address
  | append_singleton history edit ih =>
    rw [editAll_append]
    exact ih.apply edit

/-- A peer is found at the address that was set last, and where it was at first if none was. -/
theorem address_editAll (p : Peer) (history : List Edit) :
    (p.editAll history).address = (addresses history).getLast?.getD p.address := by
  induction history using List.reverseRecOn with
  | nil => rfl
  | append_singleton history edit ih =>
    have hlast : (p.editAll (history ++ [edit])).address =
        edit.address?.getD (p.editAll history).address := by
      rw [editAll_append]
      exact address_apply edit _
    have haddresses : (addresses (history ++ [edit])).getLast? =
        edit.address?.or (addresses history).getLast? :=
      getLast?_filterMap_append address? history edit
    rw [hlast, ih, haddresses]
    cases edit.address? with
    | none => rfl
    | some address => rfl

/-! ### What it is judged by -/

theorem Remembers.pending_lt_iff (h : p.Remembers history) :
    p.pending < maxPending ↔ unanswered history < 2 := by
  rw [UInt8.lt_iff_toNat_lt, h.pending_eq]
  change min 255 (unanswered history) < 2 ↔ _
  omega

theorem recent_eq_true_iff (now : Time) (time : Option Time) :
    recent now time = true ↔ ∃ t ∈ time, now - t < respite := by
  cases time with
  | none => simp [recent]
  | some t => simp [recent]

theorem Remembers.status_eq (h : p.Remembers history) (now : Time) :
    p.status now = verdict history now := by
  rcases hreply : (replies history).getLast? with _ | reply
  · have hsilent : replies history = [] := List.getLast?_eq_none_iff.mp hreply
    have hpending := h.pending_lt_iff
    rw [unanswered_of_replies_eq_nil hsilent] at hpending
    simp only [status, verdict, h.lastReply_eq, hreply, hpending]
  · have hrecent : (recent now (some reply) || recent now p.lastQuery) = true ↔
        now - reply < respite ∨ ∃ query ∈ (queries history).getLast?, now - query < respite := by
      rw [Bool.or_eq_true, recent_eq_true_iff, recent_eq_true_iff, h.lastQuery_eq]
      simp
    simp only [status, verdict, h.lastReply_eq, hreply, hrecent, h.pending_lt_iff]

/-- **Liveness.**  After any history of a new peer, with its times in any order, the record
    shows the last marks and the number of unanswered queries up to 255, and its status at any
    time is the verdict on the history.  As long as it never replied, a bad peer stays bad. -/
theorem liveness_exact (id : NodeId) (address : Address) (history : List Edit) :
    let p := (new id address).editAll history
    p.pending.toNat = min 255 (unanswered history) ∧
      p.lastReply = (replies history).getLast? ∧
      p.lastQuery = (queries history).getLast? ∧
      (∀ now, p.status now = verdict history now) ∧
      (replies history = [] → ∀ now, p.status now = .bad →
        ∀ more, replies more = [] → ∀ later, (p.editAll more).status later = .bad) := by
  have hp := remembers_editAll id address history
  refine ⟨hp.pending_eq, hp.lastReply_eq, hp.lastQuery_eq, hp.status_eq, ?_⟩
  intro hsilent now hbad more hmore later
  have hverdict : verdict history now = .bad := (hp.status_eq now).symm.trans hbad
  have hlonger := remembers_editAll id address (history ++ more)
  rw [← editAll_append, hlonger.status_eq]
  exact verdict_append_of_bad hsilent hmore hverdict later

/-- A peer that was queried 256 times, each time a minute earlier, and never replied. -/
def ignored : Peer :=
  (new .zero (.v4 ⟨Bytes.fill 4 127, 6881⟩)).editAll
    ((List.range 256).map fun k => .markQuery (-minute * k))

set_option maxRecDepth 4000 in
/-- Its counter stands at the end, and it does not become questionable by more queries or by
    waiting. -/
theorem liveness_exact_ignored :
    ignored.pending.toNat = 255 ∧ ignored.lastQuery = some (-255 * minute) ∧
      ignored.status 0 = .bad ∧
      ∀ later, (ignored.editAll [.markQuery 0, .markQuery 1]).status later = .bad := by
  obtain ⟨hpending, -, hquery, hstatus, hstays⟩ := liveness_exact .zero
    (.v4 ⟨Bytes.fill 4 127, 6881⟩) ((List.range 256).map fun k => .markQuery (-minute * k))
  have hbad : ignored.status 0 = .bad := (hstatus 0).trans (by decide)
  exact ⟨hpending.trans (by decide), hquery.trans (by decide), hbad,
    hstays (by decide) 0 hbad [.markQuery 0, .markQuery 1] rfl⟩

end Peer

end Kademlia
