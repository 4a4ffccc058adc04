import Bittorrent.Lib.InOrder
import Bittorrent.Stream.Ends

/-!
# The tracker is a counter

`track_data_packet` keeps a sorted list of records, walks over the continuous ones at its front and
deletes them. A number is added only right behind its predecessor, so the list never has a second
record for longer than one call, and the number returned is the in-order counter of what arrived.

`Lib.InOrder` has the counter, with nothing of the tracker in it. A call adds its number to the list if it
is behind the last record, and then walks over what is continuous; with one record in the list that is one
step of the counter (`advance_eq_next`), and again one record is left (`advanceRecords_one`). The run lemma
is the induction over the calls (`Tracks.counts`).
-/

namespace Bittorrent

/-- The arguments of one call of `track_data_packet` for a peer, and its time. -/
structure TrackCall where
  seq : Nat
  length : Nat
  now : Time

/-- Calls of `track_data_packet` one after another: what each returns, and the state it leaves. -/
def trackCalls (p : Int) : List TrackCall → Downloads → List (Nat × Downloads)
  | [], _ => []
  | call :: calls, d =>
    let r := trackDataPacket p call.seq call.length call.now d
    r :: trackCalls p calls r.2

variable {d d₁ : Downloads} {p : Int} {index max n : Nat} {slot : DownloadSlot} {hash : Hash}
  {clk : Clock}

theorem advance_eq_next (h : n + 1 < 2 ^ 32) (seq : Nat) : advance n seq = InOrder.next n seq := by
  have hwrap : wrap32 (n + 1) = n + 1 := Nat.mod_eq_of_lt h
  rw [advance, InOrder.next, hwrap]
  by_cases hseq : seq = n + 1
  · rw [if_pos hseq.symm, if_pos hseq, hseq]
  · rw [if_neg (Ne.symm hseq), if_neg hseq]

/-- The slot of the peer holds one record. -/
def OneRecord (p : Int) (index : Nat) (d : Downloads) : Prop :=
  ∃ slot record, d.slots[index]? = some slot ∧ slot.downloadId = p ∧ slot.lastAckedRecord = [record]

theorem Tracks.oneRecord (h : Tracks d p index slot n) : OneRecord p index d := by
  obtain ⟨record, hrecord, -⟩ := List.map_eq_singleton_iff.mp h.newest
  exact ⟨slot, record, h.get, (h.only index slot h.get).mpr rfl, hrecord⟩

theorem Tracks.counts (h : Tracks d p index slot n) (calls : List TrackCall)
    (hlen : n + calls.length < 2 ^ 32) :
    (∀ r ∈ trackCalls p calls d, OneRecord p index r.2) ∧
      (trackCalls p calls d).map Prod.fst = InOrder.counts n (calls.map TrackCall.seq) := by
  induction calls generalizing d slot n with
  | nil => exact ⟨fun r hr => absurd hr List.not_mem_nil, rfl⟩
  | cons call calls ih =>
    rw [List.length_cons] at hlen
    obtain ⟨slot', htrack, -, htracks⟩ := h.track call.seq call.length call.now
    rw [advance_eq_next (by omega)] at htrack htracks
    have hnext := InOrder.next_le n call.seq
    obtain ⟨hone, hvalues⟩ := ih htracks (by omega)
    rw [trackCalls, htrack]
    refine ⟨fun r hr => ?_, ?_⟩
    · rcases List.mem_cons.mp hr with rfl | hr
      · exact htracks.oneRecord
      · exact hone r hr
    · rw [List.map_cons, List.map_cons, InOrder.counts, hvalues]

/-- The slot that `start_download` took for a peer without a download tracks what arrives as the
counter that starts at 0 does: the list is one record after every call, the numbers returned are
those of the counter, they never decrease, and whatever is returned has arrived in order. -/
theorem tracker_counts (h : TrackerState max d) (hnone : getDownloadIndexById p d = none)
    (hstart : startDownload p hash clk d = some (index, d₁)) (calls : List TrackCall)
    (hlen : calls.length < 2 ^ 32) :
    (∀ r ∈ trackCalls p calls d₁, OneRecord p index r.2) ∧
      (trackCalls p calls d₁).map Prod.fst = InOrder.counts 0 (calls.map TrackCall.seq) ∧
      ((trackCalls p calls d₁).map Prod.fst).Pairwise (· ≤ ·) ∧
      ∀ j k, ((trackCalls p calls d₁).map Prod.fst)[j]? = some k →
        (List.range' 1 k).Sublist ((calls.map TrackCall.seq).take (j + 1)) := by
  obtain ⟨slot, -, -, htracks⟩ := startDownload_tracks h.freeEmpty hnone hstart
  obtain ⟨hone, hvalues⟩ := htracks.counts calls (by omega)
  refine ⟨hone, hvalues, ?_, fun j k hk => ?_⟩
  · rw [hvalues]
    exact InOrder.counts_pairwise 0 _
  · rw [hvalues] at hk
    simpa using InOrder.range_sublist hk

/-- Six packets, out of order and twice. -/
theorem tracker_counts_six : ∃ d₁, startDownload 1 (sampleHash 0) (fun _ => 0)
      (initDownloads 1 [] fun _ _ => 0) = some (0, d₁) ∧
    (trackCalls 1 ([2, 1, 1, 3, 2, 3].map fun seq => ⟨seq, 1484, 0⟩) d₁).map Prod.fst =
      [0, 1, 1, 1, 2, 3] := by
  have hinit : TrackerState 1 (initDownloads 1 [] fun _ _ => 0) := .init rfl
  have hstart : startDownload 1 (sampleHash 0) (fun _ => 0) (initDownloads 1 [] fun _ _ => 0) =
      some (0, _) := rfl
  exact ⟨_, rfl, (tracker_counts hinit rfl hstart
    ([2, 1, 1, 3, 2, 3].map fun seq => ⟨seq, 1484, 0⟩) (by decide)).2.1⟩

end Bittorrent
