import Bittorrent.Download.Streams

/-!
# The states of the tracker

The arrays of the download slots are static to `keep_track.c`, so its functions are all that ever
changes them: `TrackerState` lists the states they can be in, whoever calls them, and every state of a
run of the program is one (`trackerState_reach`). In none of them does a free slot hold a record.

A property of every slot that the three functions keep is a property of `TrackerState`, by its own
induction, and `trackerState_rule` gives it to the runs: no handler writes a slot but through them.
-/

namespace Bittorrent

variable {env : Env} {d d' d₁ : Downloads} {l log : DownloadLog} {p : Int} {index entry max : Nat}
  {hash : Hash} {chunk : Chunk} {clk : Clock}

/-- The records, the peers and the hashes of the slots are static to `keep_track.c`: they are what
its functions, called in any order for peers with a valid id, have made of them. -/
inductive TrackerState (max : Nat) : Downloads → Prop
  | init {d : Downloads} (hslots : d.slots = List.replicate max ⟨idNull, none, [], 0⟩) :
      TrackerState max d
  | start {d d' : Downloads} {p : Int} {hash : Hash} {clk : Clock} {index : Nat}
      (h : TrackerState max d) (hp : p ≠ idNull)
      (hstart : startDownload p hash clk d = some (index, d')) : TrackerState max d'
  | track {d : Downloads} {p : Int} (h : TrackerState max d) (hp : p ≠ idNull)
      (seq length : Nat) (now : Time) : TrackerState max (trackDataPacket p seq length now d).2
  /-- Also by `clean_download_timeout`. -/
  | abort {d : Downloads} (h : TrackerState max d) (p : Int) : TrackerState max (abortDownload p d)
  /-- The rest of the program. -/
  | outside {d d' : Downloads} (h : TrackerState max d) (hslots : d'.slots = d.slots) :
      TrackerState max d'

/-- A free slot has no record. -/
def FreeEmpty (d : Downloads) : Prop :=
  Slots (fun slot => slot.downloadId = idNull → slot.lastAckedRecord = []) d

theorem FreeEmpty.track (h : FreeEmpty d) (hp : p ≠ idNull) (seq length : Nat) (now : Time) :
    FreeEmpty (trackDataPacket p seq length now d).2 := by
  cases hfound : getDownloadIndexById p d with
  | none =>
    rw [trackDataPacket_none hfound]
    exact h
  | some r =>
    obtain ⟨index, slot⟩ := r
    rw [trackDataPacket_eq hfound]
    refine Slots.write h (getDownloadIndexById_get hfound) fun hfree => ?_
    exact absurd ((getDownloadIndexById_id hfound).symm.trans hfree) hp

theorem FreeEmpty.abort (h : FreeEmpty d) (p : Int) : FreeEmpty (abortDownload p d) := by
  cases hfound : getDownloadIndexById p d with
  | none =>
    rw [abortDownload_none hfound]
    exact h
  | some r =>
    rw [abortDownload_eq hfound]
    exact Slots.write h (getDownloadIndexById_get hfound) fun _ => rfl

theorem FreeEmpty.start (h : FreeEmpty d) (hp : p ≠ idNull)
    (hstart : startDownload p hash clk d = some (index, d')) : FreeEmpty d' := by
  unfold startDownload at hstart
  split at hstart
  · cases hstart
  · rename_i i free hfree
    cases hstart
    refine FreeEmpty.track (Slots.write h (getDownloadIndexById_get hfree) fun hnull => ?_) hp _ _ _
    exact absurd hnull hp

theorem TrackerState.freeEmpty (h : TrackerState max d) : FreeEmpty d := by
  induction h with
  | init hslots =>
    intro i slot hi _
    rw [hslots] at hi
    rw [List.eq_of_mem_replicate (List.mem_of_getElem? hi)]
  | start _ hp hstart ih => exact ih.start hp hstart
  | track _ hp seq length now ih => exact ih.track hp seq length now
  | abort _ p ih => exact ih.abort p
  | outside _ hslots ih => exact Slots.congr ih hslots

/-! ## Runs -/

theorem trackerState_rule (max : Nat) :
    SlotRule (TrackerState max) (· ≠ idNull) fun _ _ => True where
  outside h hslots := h.outside hslots
  track h hp _ length now := h.track hp _ length now
  abort h p := h.abort p
  opened {d p} h hp _ hash clk := by
    unfold Downloads.opened
    split
    · exact h
    · rename_i index d' hstart
      exact h.start hp hstart
  start_congr _ _ := trivial
  reopened _ _ := trivial

/-- The slots of a run are those of the tracker. -/
theorem trackerState_reach {has : List Chunk} {files : String → Memory}
    (h : (downloadMachine env).Reach (· = initDownloads max has files) ValidPeers d log) :
    TrackerState max d := by
  refine h.invariant (I := fun d _ => TrackerState max d) (fun d hd => .init (by rw [hd]; rfl))
    fun d log ev d' l hr hI hok hs => (trackerState_rule max).step hI ?_ hs
  have hpeers := peersValid_reach (fun _ _ _ hok => hok) hr
  cases ev with
  | ihave src p packet clk => exact ⟨hok, fun _ => trivial⟩
  | data src p packet clk => exact hok
  | crash clk rto => exact fun d₁ q entry chunk hcrash hpick =>
      ⟨picked_valid hpeers hcrash hpick, trivial⟩
  | _ => trivial

end Bittorrent
