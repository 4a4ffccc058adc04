import Bittorrent.Stream.Gathering
import Bittorrent.Upload.Supply

/-!
# The course of a stream

Until packet 354 completes the entry the receiver only acknowledges and saves (`Underway`). The bytes are
then the sender's whole chunk, and `save_chunk` keeps them exactly if they have the hash of the entry
(`Over`). Every state of a run is one of the two, whatever the channel does (`stream_cases`).

`Underway` joins the two ends: the slot of the sender is `Ready` at `a` and `t`, the receiver gathers at `n`
and `r`, and `a ≤ n ≤ t`. A step of the sender moves `a` or `t`; an ACK in flight carries a number that the
receiver has reached, so `a` stays below `n` (`Underway.ackNumber`). A step of the receiver is one of the
four of `Gathered`, and the packet was sent, so `n` stays below `t` (`Underway.gathered`). The packet that
completes the entry turns `Underway` into `Over`, which nothing leaves, as no packet is delivered to a
stream that is over (`Over.step`). How often a packet was taken is read off the log (`takenSeqs`), so that a
condition on the run can speak of repeats without naming `r` (`Underway.nodup_iff`).
-/

namespace Bittorrent

variable {k : Link} {c : Int} {s s' : System} {log l : SystemLog} {d : Downloads} {seq n r i a t m : Nat}
  {hash : Hash} {bytes : List UInt8} {down : DownloadLog}

/-! ## The start of a stream -/

/-- In a run of the sender, the GET of a receiver without an upload has taken a slot. -/
def UploadStarted (k : Link) (c : Int) (u : Uploads) : Prop :=
  ∃ max unset u₀ up clk, (uploadMachine k.sender).Reach (· = initUploads max unset) Machine.Any u₀ up ∧
    getUploadIndexById k.receiverId u₀ = none ∧ getUploadIndexById idNull u₀ ≠ none ∧
    (inboundGet k.receiverId c clk u₀).1 = u

/-- A stream of chunk `c` at both ends, for an entry with the given hash whose id is its position. -/
structure StreamStarted (k : Link) (c : Int) (hash : Hash) (s : System) : Prop where
  id : ChunkHeld k.sender c
  receiver : k.receiverId ≠ idNull
  upload : UploadStarted k c s.sender
  download : ∃ request entry chunk, DownloadOpened k request entry chunk s.receiver ∧
    getChunkId chunk.hash request.chunks = entry ∧ chunk.hash = hash

theorem StreamStarted.opened (h : StreamStarted k c hash s) : OpenedInPlace k c s := by
  obtain ⟨max, unset, u₀, up, clk, hreach, hnone, -, hget⟩ := h.upload
  obtain ⟨request, entry, chunk, hdown, hplace, -⟩ := h.download
  exact ⟨h.id, ⟨u₀, clk, cleanUploads_reach k.sender hreach, hnone, hget⟩, request, entry, chunk, hdown, hplace⟩

theorem StreamStarted.serving (h : StreamStarted k c hash s) : ∃ i, Serving k.receiverId i 0 0 s.sender := by
  obtain ⟨max, unset, u₀, up, clk, hreach, hnone, hfree, hget⟩ := h.upload
  obtain ⟨⟨i, slot⟩, hfound⟩ := Option.ne_none_iff_exists'.mp hfree
  exact ⟨i, hget ▸ serving_started (queueInv_reach hreach) hnone hfound⟩

theorem StreamStarted.gathers (h : StreamStarted k c hash s) : Gathers k c hash 0 0 s.receiver := by
  obtain ⟨index, slot, hash', request, entry, chunk, n, hholding⟩ :=
    (copyInv_opened h.opened).holding fun ⟨e, hmem⟩ => List.not_mem_nil hmem
  obtain ⟨request₀, entry₀, chunk₀, hdown, hplace, rfl⟩ := h.download
  obtain ⟨d₀, index₀, slot₀, -, hentry, hd, hname, htracks⟩ := hdown.tracks
  obtain ⟨-, rfl⟩ := Prod.mk.inj (Option.some.inj (htracks.found.symm.trans hholding.target.found))
  obtain rfl : chunk₀.hash = hash' := Option.some.inj (hname.symm.trans hholding.target.named)
  obtain rfl : 0 = n := by
    have hnewest := htracks.newest.symm.trans hholding.tracks.newest
    exact (List.cons.inj hnewest).1
  have hcurrent := hholding.target.current
  rw [hd] at hcurrent
  have hwritten := (writeChunk_currentRequest hentry.current entry₀ { chunk₀ with state := .receiving }).symm.trans
    hcurrent
  obtain rfl := Option.some.inj hwritten
  have hline : ({ chunk₀ with state := .receiving } : Chunk).line = chunk₀.line := rfl
  have hid := (getChunkId_set hentry.get hline).symm.trans hholding.target.id
  obtain rfl : entry₀ = entry := Int.ofNat.inj (hplace.symm.trans hid)
  have hget := hholding.target.get
  rw [Table.get_set_self (List.getElem?_eq_some_iff.mp hentry.get).1] at hget
  have hgathering : Gathering k c s.receiver _ _ _ _ _ chunk 0 0 :=
    ⟨hholding.tracks, hholding.target, hholding.state, hholding.empty, hholding.bound, hholding.count,
      fun _ => hholding.bytes⟩
  exact ⟨_, _, _, _, _, _, hgathering, (congrArg (·.hash) (Option.some.inj hget)).symm⟩

/-! ## The invariant -/

/-- What the receiver logs while the stream goes on. -/
def Ongoing : DownloadAction → Prop
  | .sent _ (.ack _) => True
  | .accepted _ _ _ _ _ => True
  | _ => False

/-- The numbers of the packets that the receiver has taken from the sender. -/
def takenSeqs (k : Link) (log : SystemLog) : List Nat :=
  log.downloads.filterMap fun
    | .accepted _ p seq _ _ => if p = k.senderId then some seq else none
    | _ => none

/-- The sender has transmitted the packets up to `t` and was told of those up to `a`; the receiver has
acknowledged at most the `n` packets it holds, and `r` times taken one of them again. -/
structure Underway (k : Link) (c : Int) (hash : Hash) (i a t n r : Nat) (s : System) (log : SystemLog) :
    Prop where
  ack : AckInv k c s log
  id : ChunkHeld k.sender c
  name : k.receiverId ≠ idNull
  serving : Serving k.receiverId i a t s.sender
  sent : ∀ seq bytes, DataSent k log seq bytes → seq ≤ t
  gathers : Gathers k c hash n r s.receiver
  acked : a ≤ n
  issued : n ≤ t
  acks : ∀ m, AckSent k log m → m ≤ n
  newest : n = 0 ∨ AckSent k log n
  ongoing : ∀ act ∈ log.downloads, Ongoing act
  taken : (r = 0 ∧ takenSeqs k log = List.range' 1 n) ∨ (r ≠ 0 ∧ ¬ (takenSeqs k log).Nodup)

/-- The entry was full: it was verified exactly if the sender's chunk has its hash. -/
structure Over (k : Link) (c : Int) (hash : Hash) (s : System) (log : SystemLog) : Prop where
  closed : SecondStream k log ∨ getDownloadIndexById k.senderId s.receiver = none
  completed : Completed log
  verified : ∀ h b, .verified h b ∈ log.downloads ↔
    h = hash ∧ b = masterChunk k.sender c ∧ k.receiver.shahash b = hash

theorem StreamStarted.underway (h : StreamStarted k c hash s) : ∃ i, Underway k c hash i 0 0 0 0 s [] := by
  obtain ⟨i, hserving⟩ := h.serving
  refine ⟨i, (copyInv_opened h.opened).ack, h.id, h.receiver, hserving, ?_, h.gathers, le_refl 0, le_refl 0,
    ?_, Or.inl rfl, fun act hmem => absurd hmem List.not_mem_nil, Or.inl ⟨rfl, rfl⟩⟩
  · rintro seq bytes ⟨j, again, hmem⟩
    cases hmem
  · intro m hmem
    cases hmem

theorem Underway.not_second (h : Underway k c hash i a t n r s log) : ¬ SecondStream k log :=
  fun ⟨_, _, hmem⟩ => h.ongoing _ hmem

theorem Underway.not_completed (h : Underway k c hash i a t n r s log) : ¬ Completed log :=
  fun ⟨_, hmem⟩ => h.ongoing _ hmem

theorem Underway.lt (h : Underway k c hash i a t n r s log) : n < maxPacketPerChunk := by
  obtain ⟨_, _, _, _, _, _, hgathering, -⟩ := h.gathers
  have hbound := hgathering.bound
  omega

theorem Underway.nodup_iff (h : Underway k c hash i a t n r s log) : (takenSeqs k log).Nodup ↔ r = 0 := by
  rcases h.taken with ⟨hzero, htaken⟩ | ⟨hne, hdup⟩
  · rw [htaken]
    exact ⟨fun _ => hzero, fun _ => List.nodup_range'⟩
  · exact ⟨fun hnodup => absurd hnodup hdup, fun hzero => absurd hzero hne⟩

theorem takenSeqs_append : takenSeqs k (log ++ l) = takenSeqs k log ++ takenSeqs k l := by
  rw [takenSeqs, downloads_append, List.filterMap_append]
  rfl

theorem takenSeqs_inr (down : DownloadLog) : takenSeqs k (down.map .inr) = down.filterMap fun
    | .accepted _ p seq _ _ => if p = k.senderId then some seq else none
    | _ => none := by
  rw [takenSeqs, downloads_inr]

theorem takenSeqs_inl (up : UploadLog) : takenSeqs k (up.map .inl) = [] := by
  rw [takenSeqs, downloads_inl]
  rfl

/-! ## Steps of the sender -/

theorem Underway.upload {u : Uploads} {up : UploadLog} {a' t' : Nat} (h : Underway k c hash i a t n r s log)
    (hack : AckInv k c { s with sender := u } (log ++ up.map .inl))
    (hserving : Serving k.receiverId i a' t' u) (hsent : SentUpTo k.receiverId t' up) (ht : t ≤ t')
    (ha : a' ≤ n) : Underway k c hash i a' t' n r { s with sender := u } (log ++ up.map .inl) := by
  have hdown : PeerLog.downloads (log ++ up.map .inl) = log.downloads := by
    rw [downloads_append, downloads_inl, List.append_nil]
  refine ⟨hack, h.id, h.name, hserving, ?_, h.gathers, ha, h.issued.trans ht, ?_, ?_, ?_, ?_⟩
  · rintro seq bytes ⟨j, again, hmem⟩
    rw [uploads_append, uploads_inl] at hmem
    rcases List.mem_append.mp hmem with hmem | hmem
    · exact (h.sent seq bytes ⟨j, again, hmem⟩).trans ht
    · exact hsent _ _ _ _ hmem
  · intro m hm
    rw [AckSent, hdown] at hm
    exact h.acks m hm
  · rw [AckSent, hdown]
    exact h.newest
  · rw [hdown]
    exact h.ongoing
  · rw [takenSeqs_append, takenSeqs_inl, List.append_nil]
    exact h.taken

theorem Underway.ackNumber (h : Underway k c hash i a t n r s log) (hm : m ≤ n) (stale : Memory) :
    (receiveInto stale (Message.ack m).datagram).ackNumber = m := by
  have hlt := h.lt
  simp only [maxPacketPerChunk] at hlt
  rw [receive_ackNumber (.ack m) stale (show headerLength < 2 ^ 16 by decide)]
  exact Nat.mod_eq_of_lt (show m < 2 ^ 32 by omega)

/-! ## Steps of the receiver -/

theorem Underway.download {n' r' : Nat} (h : Underway k c hash i a t n r s log)
    (hack : AckInv k c { s with receiver := d } (log ++ down.map .inr)) (hgathers : Gathers k c hash n' r' d)
    (hn : n ≤ n') (hissued : n' ≤ t) (hongoing : ∀ act ∈ down, Ongoing act)
    (hacks : ∀ m, .sent (some k.src) (.ack m) ∈ down → m ≤ n')
    (hnewest : n' = n ∨ .sent (some k.src) (.ack n') ∈ down)
    (htaken : (r' = 0 ∧ takenSeqs k (log ++ down.map .inr) = List.range' 1 n') ∨
      (r' ≠ 0 ∧ ¬ (takenSeqs k (log ++ down.map .inr)).Nodup)) :
    Underway k c hash i a t n' r' { s with receiver := d } (log ++ down.map .inr) := by
  refine ⟨hack, h.id, h.name, h.serving, ?_, hgathers, h.acked.trans hn, hissued, ?_, ?_, ?_, htaken⟩
  · rintro seq bytes ⟨j, again, hmem⟩
    rw [uploads_append, uploads_inr, List.append_nil] at hmem
    exact h.sent seq bytes ⟨j, again, hmem⟩
  · intro m hm
    rcases ackSent_append.mp hm with hm | hm
    · exact (h.acks m hm).trans hn
    · exact hacks m hm
  · rcases hnewest with rfl | hmem
    · exact h.newest.imp_right fun hm => ackSent_append.mpr (Or.inl hm)
    · exact Or.inr (ackSent_append.mpr (Or.inr hmem))
  · intro act hmem
    rw [downloads_append, downloads_inr] at hmem
    exact (List.mem_append.mp hmem).elim (h.ongoing act) (hongoing act)

theorem Underway.over (h : Underway k c hash i a t n r s log) (hclosing : Closing k c hash down)
    (hclosed : getDownloadIndexById k.senderId d = none ∨ ∃ j e, .handed j k.senderId e ∈ down) :
    Over k c hash { s with receiver := d } (log ++ down.map .inr) := by
  obtain ⟨index, seq, entry, size, next, rfl, hnext⟩ := hclosing
  refine ⟨?_, ⟨entry, ?_⟩, fun h' b => ?_⟩
  · rcases hclosed with hnone | hmem
    · exact Or.inr hnone
    · exact Or.inl (secondStream_append.mpr (Or.inr hmem))
  · rw [downloads_append, downloads_inr]
    simp [savedLog]
  · have hbefore : (.verified h' b : DownloadAction) ∉ log.downloads := fun hmem => h.ongoing _ hmem
    have hafter : (.verified h' b : DownloadAction) ∉ next := fun hmem => hnext _ hmem
    rw [downloads_append, downloads_inr]
    generalize masterChunk k.sender c = master
    simp only [List.mem_append, hbefore, List.mem_cons, reduceCtorEq, savedLog, hafter, or_false, false_or]
    split_ifs with hsha
    · simp only [List.mem_singleton, DownloadAction.verified.injEq]
      constructor
      · rintro ⟨rfl, rfl⟩
        exact ⟨rfl, rfl, hsha⟩
      · rintro ⟨rfl, rfl, -⟩
        exact ⟨rfl, rfl⟩
    · simp only [List.not_mem_nil, false_iff]
      rintro ⟨-, rfl, hsame⟩
      exact hsha hsame

theorem Underway.gathered (h : Underway k c hash i a t n r s log)
    (hack : AckInv k c { s with receiver := d } (log ++ down.map .inr))
    (hsent : DataSent k log (m + 1) bytes) (hgathered : Gathered k c hash m n r down d) :
    (r = 0 ∧ Over k c hash { s with receiver := d } (log ++ down.map .inr)) ∨
      ∃ n' r', (m = n → n' = n + 1) ∧ (r' = r ∨ m + 1 = n ∧ r' = r + 1) ∧
        Underway k c hash i a t n' r' { s with receiver := d } (log ++ down.map .inr) := by
  have hdup : ∀ {l : List Nat}, ¬ (takenSeqs k log).Nodup → ¬ (takenSeqs k log ++ l).Nodup :=
    fun hdup hnodup => hdup (List.nodup_append.mp hnodup).1
  cases hgathered with
  | other hnext hagain hgathers =>
    refine Or.inr ⟨n, r, fun hm => absurd hm hnext, Or.inl rfl,
      h.download hack hgathers (le_refl n) h.issued ?_ ?_ (Or.inl rfl) ?_⟩
    · simp [Ongoing]
    · simp
    · rw [takenSeqs_append, takenSeqs_inr]
      exact (List.append_nil (takenSeqs k log)).symm ▸ h.taken
  | next hnext hgathers =>
    subst hnext
    refine Or.inr ⟨m + 1, r, fun _ => rfl, Or.inl rfl,
      h.download hack hgathers (Nat.le_succ m) (h.sent _ _ hsent) ?_ ?_ ?_ ?_⟩
    · simp [Ongoing]
    · simp
    · simp
    · rw [takenSeqs_append, takenSeqs_inr]
      rcases h.taken with ⟨hzero, htaken⟩ | ⟨hne, htaken⟩
      · refine Or.inl ⟨hzero, ?_⟩
        rw [htaken, List.range'_concat]
        simp [Nat.add_comm]
      · exact Or.inr ⟨hne, hdup htaken⟩
  | again hagain hgathers =>
    refine Or.inr ⟨n, r + 1, fun hm => absurd hm (by omega), Or.inr ⟨hagain, rfl⟩,
      h.download hack hgathers (le_refl n) h.issued ?_ ?_ (Or.inl rfl) ?_⟩
    · simp [Ongoing]
    · simp
    · refine Or.inr ⟨Nat.succ_ne_zero r, ?_⟩
      rw [takenSeqs_append, takenSeqs_inr]
      rcases h.taken with ⟨hzero, htaken⟩ | ⟨hne, htaken⟩
      · rw [htaken]
        simp only [List.filterMap_cons, List.filterMap_nil, if_true]
        intro hnodup
        have hmem : n ∈ List.range' 1 n := by
          rw [List.mem_range'_1]
          omega
        exact List.disjoint_of_nodup_append hnodup hmem (List.mem_singleton_self n)
      · exact hdup htaken
  | full hnext hnone hclosing hclosed => exact Or.inl ⟨hnone, h.over hclosing hclosed⟩

/-! ## Runs -/

theorem Underway.pieceOf (h : Underway k c hash i a t n r s log) (stale : Memory) (hsent : DataSent k log seq bytes) :
    ∃ m, seq = m + 1 ∧ PieceOf k c m (receiveInto stale (Message.data seq bytes).datagram) := by
  have hnumber := hsent.seqNumber h.ack.sender stale
  obtain ⟨m, hm, rfl, stack, rfl⟩ := hsent.piece h.ack.sender
  refine ⟨m, rfl, hm, hnumber, ?_⟩
  have hlen := chunkData_length (c := c) k.sender stack m
  rw [receive_payloadSize stale hlen, receive_headerLength _ stale, receive_payload stale hlen]
  · exact chunkData_eq h.id hm stack
  · simp only [maxPayloadSize, Message.packetLength, headerLength] at hlen ⊢
    omega

theorem Underway.step {ev : StreamEvent} (h : Underway k c hash i a t n r s log) (hok : Delivered k s log ev)
    (hs : (streamMachine k).step ev s = .ok (s', l)) :
    (r = 0 ∧ Over k c hash s' (log ++ l)) ∨
      ∃ a' t' n' r', r ≤ r' ∧ Underway k c hash i a' t' n' r' s' (log ++ l) := by
  have hack := ackInv_step h.ack hok hs
  cases ev with
  | send clk =>
    cases hs
    obtain ⟨t', hle, hserving, hsent⟩ := h.serving.send h.name k.sender clk
    exact Or.inr ⟨a, t', n, r, le_refl r, h.upload hack hserving hsent hle h.acked⟩
  | ack stale m clk =>
    have hm := h.acks m hok
    have hlt := h.lt
    simp only [streamMachine, h.ackNumber hm stale] at hs
    rcases hinbound : inboundAck k.sender k.receiverId m clk s.sender with e | ⟨u, up⟩
    · rw [hinbound] at hs
      cases hs
    · rw [hinbound] at hs
      cases hs
      have hserving := h.serving.ack (hm.trans h.issued) (by omega) hinbound
      refine Or.inr ⟨max a m, t, n, r, le_refl r, h.upload hack hserving (fun j seq bytes again hmem => ?_)
        (le_refl t) (max_le h.acked hm)⟩
      exact (inboundAck_silent hinbound k.receiverId j seq bytes again hmem).trans (Nat.zero_le t)
  | data stale seq bytes clk =>
    obtain ⟨m, rfl, hpiece⟩ := h.pieceOf stale hok.1
    simp only [streamMachine] at hs
    rcases hinbound : inboundData k.receiver k.src k.senderId
      (receiveInto stale (Message.data (m + 1) bytes).datagram) clk s.receiver with e | ⟨d, down⟩
    · rw [hinbound] at hs
      cases hs
    · rw [hinbound] at hs
      cases hs
      refine (h.gathered hack hok.1 (h.gathers.step h.ack.valid hpiece hinbound)).imp_right ?_
      rintro ⟨n', r', -, hr, hunderway⟩
      exact ⟨a, t, n', r', by omega, hunderway⟩

/-- Without a repeat so far, a packet that is not one never faults; the next one makes the stream go on by
one, or completes the entry. -/
theorem Underway.data (h : Underway k c hash i a t n 0 s log) (stale : Memory) (clk : Clock)
    (hsent : DataSent k log seq bytes) (hagain : seq ≠ n) :
    ∃ (d : Downloads) (down : DownloadLog), (streamMachine k).step (.data stale seq bytes clk) s =
        .ok ({ s with receiver := d }, down.map .inr) ∧
      (Over k c hash { s with receiver := d } (log ++ down.map .inr) ∨
        ∃ n', (seq = n + 1 → n' = n + 1) ∧
          Underway k c hash i a t n' 0 { s with receiver := d } (log ++ down.map .inr)) := by
  obtain ⟨m, rfl, hpiece⟩ := h.pieceOf stale hsent
  obtain ⟨d, down, hinbound⟩ := h.gathers.returns h.ack.valid hpiece hagain clk
  have hs : (streamMachine k).step (.data stale (m + 1) bytes clk) s =
      .ok ({ s with receiver := d }, down.map .inr) := by
    simp only [streamMachine, hinbound]
  have hok : Delivered k s log (.data stale (m + 1) bytes clk) := ⟨hsent, h.not_second⟩
  refine ⟨d, down, hs, ?_⟩
  rcases h.gathered (ackInv_step h.ack hok hs) hsent (h.gathers.step h.ack.valid hpiece hinbound) with
    ⟨-, hover⟩ | ⟨n', r', hnext, hr, hunderway⟩
  · exact Or.inl hover
  · obtain rfl : r' = 0 := hr.resolve_right fun hrepeat => hagain hrepeat.1
    exact Or.inr ⟨n', fun heq => hnext (Nat.succ_injective heq), hunderway⟩

theorem Over.step {ev : StreamEvent} (h : Over k c hash s log) (hok : Delivered k s log ev)
    (hs : (streamMachine k).step ev s = .ok (s', l)) : Over k c hash s' (log ++ l) := by
  suffices hsame : s'.receiver = s.receiver ∧ PeerLog.downloads l = [] by
    have hdown : PeerLog.downloads (log ++ l) = log.downloads := by
      rw [downloads_append, hsame.2, List.append_nil]
    refine ⟨?_, ?_, ?_⟩
    · rw [SecondStream, hdown, hsame.1]
      exact h.closed
    · rw [Completed, hdown]
      exact h.completed
    · rw [hdown]
      exact h.verified
  cases ev with
  | send clk =>
    cases hs
    exact ⟨rfl, downloads_inl _⟩
  | ack stale m clk =>
    simp only [streamMachine] at hs
    rcases hinbound : inboundAck k.sender k.receiverId (receiveInto stale (Message.ack m).datagram).ackNumber
      clk s.sender with e | ⟨u, up⟩
    · rw [hinbound] at hs
      cases hs
    · rw [hinbound] at hs
      cases hs
      exact ⟨rfl, downloads_inl _⟩
  | data stale seq bytes clk =>
    have hnone := h.closed.resolve_left hok.2
    simp only [streamMachine, inboundData, hnone] at hs
    cases hs
    exact ⟨rfl, rfl⟩

theorem stream_cases (h : (streamMachine k).Reach (StreamStarted k c hash) (Delivered k) s log) :
    Over k c hash s log ∨ ∃ i a t n r, Underway k c hash i a t n r s log := by
  induction h with
  | start hs =>
    obtain ⟨i, hunderway⟩ := hs.underway
    exact Or.inr ⟨i, 0, 0, 0, 0, hunderway⟩
  | step _ hok hs ih =>
    rcases ih with hover | ⟨i, a, t, n, r, hunderway⟩
    · exact Or.inl (hover.step hok hs)
    · refine (hunderway.step hok hs).imp And.right ?_
      rintro ⟨a', t', n', r', -, hunderway'⟩
      exact ⟨i, a', t', n', r', hunderway'⟩

end Bittorrent
