/-
  Kademlia/Table/Sweep.lean
  =========================
  **Visits to every peer of a table.**

  The visitor meets the peers in the order of buckets and of slots within them.
  It can thread a state from one visit to the next, and it decides what each slot
  holds afterwards; no slot is filled or emptied.
-/
import Kademlia.Table

namespace Kademlia.Table

def sweepBuckets {σ : Type} (visit : σ → Peer → σ × Peer) : σ → List Bucket → σ × List Bucket
  | state, [] => (state, [])
  | state, b :: rest =>
    let visited := b.sweep visit state
    let swept := sweepBuckets visit visited.1 rest
    (swept.1, visited.2 :: swept.2)

theorem length_sweepBuckets {σ : Type} (visit : σ → Peer → σ × Peer) (state : σ)
    (buckets : List Bucket) :
    (sweepBuckets visit state buckets).2.length = buckets.length := by
  induction buckets generalizing state with
  | nil => rfl
  | cons b rest ih => simp [sweepBuckets, ih]

/-- Visits every peer, and gives the visitor's last state. -/
def sweep {σ : Type} (t : Table) (visit : σ → Peer → σ × Peer) (state : σ) : σ × Table :=
  let result := sweepBuckets visit state t.buckets
  (result.1, { t with
    buckets := result.2
    buckets_ne_nil := by
      have h := List.length_pos_iff.mpr t.buckets_ne_nil
      rw [← length_sweepBuckets visit state t.buckets] at h
      exact List.length_pos_iff.mp h })

def mapPeers (t : Table) (f : Peer → Peer) : Table :=
  (t.sweep (fun _ p => ((), f p)) ()).2

end Kademlia.Table
