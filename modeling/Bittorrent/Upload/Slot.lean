import Bittorrent.Upload.Queue

/-!
# One slot over a run

`slotLog i` is the part of a log that is about slot `i`. `send_data_packets` reaches a slot only in
its passes for the slot's peer (`UploadSlot.passes`), and `SlotStep` lists what a step of the machine
does to a slot that no GET touches (`Untouched`). What the steps of one slot keep, a run keeps
(`slot_invariant`), from any state in which the slot is as it should be at the start.

Two facts make the reduction work. The loop of `send_data_packets` looks slots up by peer, so a slot is
reached by the passes of its own peer and of no other, and only if it is the first of them (`sendLoop_slot`,
`sendLoop_other`); and the epoch of a slot is that of its own part of the log (`epoch_slotLog`). `slot_step`
goes through the events once with both, and the later modules case on `SlotStep`, whose constructors are
what can happen to a slot at all: nothing, a list of passes, an ACK, and the end of the stream.
-/

namespace Bittorrent

variable {env : Env} {u u' : Uploads} {p q c : Int} {clk : Clock} {i j : Nat}
  {slot slot' : UploadSlot} {log l : UploadLog}

/-! ## The log of a slot -/

/-- What a log says about slot `i`. -/
def slotLog (i : Nat) (log : UploadLog) : List StreamAction :=
  log.filterMap fun a => if a.1 = i then some a.2 else none

@[simp] theorem slotLog_nil (i : Nat) : slotLog i [] = [] := rfl

@[simp] theorem slotLog_append (i : Nat) (log l : UploadLog) :
    slotLog i (log ++ l) = slotLog i log ++ slotLog i l := List.filterMap_append

@[simp] theorem slotLog_map (i : Nat) (acts : List StreamAction) :
    slotLog i (acts.map (i, ·)) = acts := by
  simp [slotLog, List.filterMap_map]

theorem slotLog_map_ne (h : j ≠ i) (acts : List StreamAction) :
    slotLog i (acts.map (j, ·)) = [] := by
  simp [slotLog, List.filterMap_map, h]

theorem mem_slotLog {act : StreamAction} : act ∈ slotLog i log ↔ (i, act) ∈ log := by
  simp [slotLog]

theorem epoch_slotLog (i : Nat) (log l : UploadLog) :
    epoch i (log ++ l) = (slotLog i l).foldl Epoch.next (epoch i log) := by
  rw [epoch, List.foldl_append, ← epoch, slotLog, List.foldl_filterMap]
  congr 1
  funext e a
  split_ifs <;> rfl

/-! ## The passes for a slot -/

/-- The passes of `send_data_packets` that find the slot of `peerId`. -/
def UploadSlot.passes (env : Env) (peerId : Int) (pass : Nat → Pass) (rto : Int) :
    List (Int × Int) → UploadSlot → UploadSlot × List StreamAction
  | [], slot => (slot, [])
  | (id, chunkId) :: rest, slot =>
    if id = peerId then
      let (slot, sent) := slot.sendPass env peerId chunkId (pass rest.length) rto
      let (slot, sent') := passes env peerId pass rto rest slot
      (slot, sent ++ sent')
    else passes env peerId pass rto rest slot

theorem passes_path (env : Env) {Move : UploadSlot → List StreamAction → UploadSlot → Prop}
    (pass : Nat → Pass) (rto : Int) : ∀ (pairs : List (Int × Int)) (slot : UploadSlot),
      (∀ c slot k, (p, c) ∈ pairs → slot.uploadId = p →
        Move slot (slot.sendPass env p c (pass k) rto).2 (slot.sendPass env p c (pass k) rto).1) →
      slot.uploadId = p →
      Path Move slot (slot.passes env p pass rto pairs).2 (slot.passes env p pass rto pairs).1 := by
  intro pairs
  induction pairs with
  | nil => exact fun slot _ _ => .refl
  | cons pc rest ih =>
    obtain ⟨q, c⟩ := pc
    intro slot hmove hid
    have hrest := fun c slot k hmem => hmove c slot k (List.mem_cons_of_mem _ hmem)
    rw [UploadSlot.passes]
    split_ifs with hq
    · subst hq
      exact (Path.single (hmove c slot rest.length List.mem_cons_self hid)).trans
        (ih _ hrest ((sendPass_ids _ _ _ _ _ _).1.trans hid))
    · exact ih slot hrest hid

theorem sendLoop_slot (env : Env) (pass : Nat → Pass) : ∀ (pairs : List (Int × Int)) {u : Uploads}
    {slot : UploadSlot}, getUploadIndexById p u = some (i, slot) →
      getUploadIndexById p (sendLoop env pass pairs u).1 =
          some (i, (slot.passes env p pass u.net.rto pairs).1) ∧
        slotLog i (sendLoop env pass pairs u).2 = (slot.passes env p pass u.net.rto pairs).2 := by
  intro pairs
  induction pairs with
  | nil => exact fun h => ⟨h, rfl⟩
  | cons pc rest ih =>
    obtain ⟨q, c⟩ := pc
    intro u slot h
    simp only [sendLoop, UploadSlot.passes, slotLog_append]
    by_cases hq : q = p
    · subst hq
      have hid := (sendPass_ids env q c (pass rest.length) u.net.rto slot).1.trans
        (getUploadIndexById_id h)
      obtain ⟨hslot, hlog⟩ := ih (getUploadIndexById_write h hid)
      rw [sendDataPacket_eq h, if_pos rfl, slotLog_map]
      exact ⟨hslot, congrArg _ hlog⟩
    · rw [if_neg hq]
      cases hl : getUploadIndexById q u with
      | none =>
        rw [sendDataPacket_none hl]
        exact ih h
      | some r =>
        obtain ⟨j, slot₁⟩ := r
        have hkey := getUploadIndexById_id hl
        have hother : getUploadIndexById p
            (u.write j (slot₁.sendPass env q c (pass rest.length) u.net.rto).1) = some (i, slot) :=
          (Table.lookup_set_other (getUploadIndexById_get hl) (sendPass_ids _ _ _ _ _ _).1
            (hkey ▸ hq)).trans h
        have hji : j ≠ i := by
          rintro rfl
          have hget := getUploadIndexById_get hl
          rw [getUploadIndexById_get h] at hget
          cases hget
          exact hq (hkey.symm.trans (getUploadIndexById_id h))
        obtain ⟨hslot, hlog⟩ := ih hother
        rw [sendDataPacket_eq hl, slotLog_map_ne hji, List.nil_append]
        exact ⟨hslot, hlog⟩

theorem sendLoop_other (env : Env) (pass : Nat → Pass) : ∀ (pairs : List (Int × Int)) (u : Uploads),
    (∀ pc ∈ pairs, ∀ slot, getUploadIndexById pc.1 u ≠ some (i, slot)) →
      (sendLoop env pass pairs u).1.slots[i]? = u.slots[i]? ∧
        slotLog i (sendLoop env pass pairs u).2 = [] := by
  intro pairs
  induction pairs with
  | nil => exact fun _ _ => ⟨rfl, rfl⟩
  | cons pc rest ih =>
    obtain ⟨q, c⟩ := pc
    intro u h
    simp only [sendLoop, slotLog_append]
    cases hl : getUploadIndexById q u with
    | none =>
      rw [sendDataPacket_none hl]
      exact ih u fun pc hmem => h pc (List.mem_cons_of_mem _ hmem)
    | some r =>
      obtain ⟨j, slot₁⟩ := r
      have hji : j ≠ i := fun hji => h _ List.mem_cons_self slot₁ (hji ▸ hl)
      obtain ⟨hslot, hlog⟩ := ih (u.write j
          (slot₁.sendPass env q c (pass rest.length) u.net.rto).1) fun pc hmem slot hfound => by
        by_cases hpc : pc.1 = q
        · have hfound' := getUploadIndexById_write hl
            ((sendPass_ids env q c (pass rest.length) u.net.rto slot₁).1.trans
              (getUploadIndexById_id hl))
          rw [hpc, hfound'] at hfound
          exact hji (Prod.mk.inj (Option.some.inj hfound)).1
        · refine h pc (List.mem_cons_of_mem _ hmem) slot ?_
          rw [← hfound]
          exact (Table.lookup_set_other (getUploadIndexById_get hl) (sendPass_ids _ _ _ _ _ _).1
            ((getUploadIndexById_id hl).symm ▸ Ne.symm hpc)).symm
      rw [sendDataPacket_eq hl, slotLog_map_ne hji, List.nil_append]
      exact ⟨hslot.trans (Table.get_set_ne hji), hlog⟩

/-! ## What a pass transmits -/

theorem sendPass_transmitted {pass : Pass} {rto : Int} {seq : Nat} {bytes : List UInt8} {again : Bool}
    (h : .transmitted q seq bytes again ∈ (slot.sendPass env p c pass rto).2) :
    q = p ∧ ∃ n, n < maxPacketPerChunk ∧ seq = n + 1 ∧ bytes = chunkData env pass.stack c n := by
  have htransmit : ∀ (slot : UploadSlot) n timeout,
      .transmitted q seq bytes again ∈ (slot.transmit env p c n timeout pass).2 →
        q = p ∧ ∃ n, n < maxPacketPerChunk ∧ seq = n + 1 ∧ bytes = chunkData env pass.stack c n := by
    intro slot n timeout hmem
    unfold UploadSlot.transmit at hmem
    by_cases hn : n < maxPacketPerChunk
    · rw [if_pos hn] at hmem
      cases List.mem_singleton.mp hmem
      exact ⟨rfl, n, hn, rfl, rfl⟩
    · rw [if_neg hn] at hmem
      cases hmem
  simp only [UploadSlot.sendPass] at h
  split_ifs at h
  · exact htransmit _ _ _ h
  · cases h
  · rcases List.mem_append.mp h with h | h
    · simp at h
    · exact htransmit _ _ _ h

theorem sendLoop_transmitted {seq : Nat} {bytes : List UInt8} {again : Bool} (pass : Nat → Pass) :
    ∀ (pairs : List (Int × Int)) {u : Uploads},
      (j, .transmitted q seq bytes again) ∈ (sendLoop env pass pairs u).2 →
        ∃ other, u.slots[j]? = some other ∧ other.uploadId = q := by
  intro pairs
  induction pairs with
  | nil => exact fun h => absurd h List.not_mem_nil
  | cons pc rest ih =>
    obtain ⟨p, c⟩ := pc
    intro u h
    simp only [sendLoop] at h
    cases hl : getUploadIndexById p u with
    | none =>
      rw [sendDataPacket_none hl] at h
      exact ih h
    | some r =>
      obtain ⟨index, slot⟩ := r
      rw [sendDataPacket_eq hl] at h
      rcases List.mem_append.mp h with h | h
      · obtain ⟨act, hact, he⟩ := List.mem_map.mp h
        obtain ⟨rfl, rfl⟩ := Prod.mk.inj he
        exact ⟨slot, getUploadIndexById_get hl, (getUploadIndexById_id hl).trans
          (sendPass_transmitted hact).1.symm⟩
      · obtain ⟨other, hother, hid⟩ := ih h
        rcases Table.get_set_cases (Table.lookup_lt hl) hother with ⟨rfl, rfl⟩ | ⟨-, hother⟩
        · exact ⟨slot, getUploadIndexById_get hl, (sendPass_ids _ _ _ _ _ _).1.symm.trans hid⟩
        · exact ⟨other, hother, hid⟩

/-! ## A peer with one slot -/

/-- The peers and chunks `send_data_packets` goes through. -/
def sendPairs (u : Uploads) : List (Int × Int) := (getUploadList u).zip (getUploadChunkList u)

/-- No slot but `i` is of the peer `p`. -/
def OnlySlot (p : Int) (i : Nat) (u : Uploads) : Prop :=
  ∀ j other, u.slots[j]? = some other → other.uploadId = p → j = i

theorem OnlySlot.congr (h : OnlySlot p i u)
    (hids : u'.slots.map (·.uploadId) = u.slots.map (·.uploadId)) : OnlySlot p i u' := by
  intro j other hj hid
  have hmap : (u.slots.map (·.uploadId))[j]? = some p := by
    rw [← hids, List.getElem?_map, hj, ← hid]
    rfl
  rw [List.getElem?_map] at hmap
  obtain ⟨slot, hslot, hkey⟩ := Option.map_eq_some_iff.mp hmap
  exact h j slot hslot hkey

theorem OnlySlot.chunk (h : OnlySlot p i u) (hi : u.slots[i]? = some slot)
    (hmem : (p, c) ∈ sendPairs u) : c = slot.uploadChunkId := by
  obtain ⟨-, j, other, hj, hother, rfl⟩ := mem_sendPairs hmem
  obtain rfl := h j other hj hother
  rw [hi] at hj
  cases hj
  rfl

theorem passes_skip (env : Env) (pass : Nat → Pass) (rto : Int) {before : List (Int × Int)}
    (h : ∀ pc ∈ before, pc.1 ≠ p) (after : List (Int × Int)) (slot : UploadSlot) :
    slot.passes env p pass rto (before ++ after) = slot.passes env p pass rto after := by
  induction before with
  | nil => rfl
  | cons pc before ih =>
    rw [List.cons_append, UploadSlot.passes, if_neg (h pc List.mem_cons_self)]
    exact ih fun pc hmem => h pc (List.mem_cons_of_mem _ hmem)

theorem OnlySlot.passes (env : Env) (h : OnlySlot p i u) (hp : p ≠ idNull)
    (hfound : getUploadIndexById p u = some (i, slot)) (pass : Nat → Pass) (rto : Int) :
    ∃ k, slot.passes env p pass rto (sendPairs u) =
      slot.sendPass env p slot.uploadChunkId (pass k) rto := by
  have hid := getUploadIndexById_id hfound
  obtain ⟨hlt, hget⟩ := List.getElem?_eq_some_iff.mp (getUploadIndexById_get hfound)
  have hsplit : u.slots = u.slots.take i ++ slot :: u.slots.drop (i + 1) := by
    rw [← hget, ← List.drop_eq_getElem_cons hlt, List.take_append_drop]
  -- the slots on both sides are of other peers
  have hother : ∀ l : List UploadSlot, (∀ s ∈ l, s.uploadId ≠ p) → ∀ pc ∈ (l.filter fun s : UploadSlot =>
      s.uploadId ≠ idNull).map fun s => (s.uploadId, s.uploadChunkId), pc.1 ≠ p := by
    intro l hl pc hmem
    obtain ⟨s, hs, rfl⟩ := List.mem_map.mp hmem
    exact hl s (List.mem_of_mem_filter hs)
  have hbefore := hother (u.slots.take i) fun s hs hsid => by
    obtain ⟨j, hj, rfl⟩ := List.mem_take_iff_getElem.mp hs
    have := h j _ (List.getElem?_eq_getElem (by omega)) hsid
    omega
  have hafter := hother (u.slots.drop (i + 1)) fun s hs hsid => by
    obtain ⟨j, hj, rfl⟩ := List.mem_drop_iff_getElem.mp hs
    have := h (i + 1 + j) _ (List.getElem?_eq_getElem (by omega)) hsid
    omega
  have hpairs : sendPairs u = (u.slots.filter fun s => s.uploadId ≠ idNull).map fun s =>
      (s.uploadId, s.uploadChunkId) := by
    rw [sendPairs, getUploadList, getUploadChunkList, List.zip_map']
  rw [hpairs, hsplit, List.filter_append, List.filter_cons_of_pos (by simpa using hid.symm ▸ hp),
    List.map_append, List.map_cons, passes_skip env pass rto hbefore, hid, UploadSlot.passes, if_pos rfl]
  have hrest := passes_skip env pass rto hafter []
  simp only [List.append_nil] at hrest
  simp only [hrest, UploadSlot.passes, List.append_nil]
  exact ⟨_, rfl⟩

/-- `send_data_packets` makes the only slot of a peer go through one pass, and transmits to the peer
under no other slot. -/
theorem OnlySlot.sendDataPackets (env : Env) (h : OnlySlot p i u) (hp : p ≠ idNull)
    (hfound : getUploadIndexById p u = some (i, slot)) (pass : Nat → Pass) :
    OnlySlot p i (sendDataPackets env pass u).1 ∧ (∃ k,
      getUploadIndexById p (sendDataPackets env pass u).1 =
          some (i, (slot.sendPass env p slot.uploadChunkId (pass k) u.net.rto).1) ∧
        slotLog i (sendDataPackets env pass u).2 =
          (slot.sendPass env p slot.uploadChunkId (pass k) u.net.rto).2) ∧
      ∀ j seq bytes again, (j, .transmitted p seq bytes again) ∈ (sendDataPackets env pass u).2 →
        j = i := by
  obtain ⟨k, hk⟩ := h.passes env hp hfound pass u.net.rto
  refine ⟨h.congr (sendLoop_frame (fun p c pass rto slot => (sendPass_ids env p c pass rto slot).1)
      pass _ u), ⟨k, ?_⟩, fun j seq bytes again hmem => ?_⟩
  · rw [← hk]
    exact sendLoop_slot env pass (sendPairs u) hfound
  · obtain ⟨other, hj, hid⟩ := sendLoop_transmitted pass _ hmem
    exact h j other hj hid

/-! ## A step -/

/-- A GET neither starts a stream in slot `i` nor resets its window. -/
def Untouched (i : Nat) (u : Uploads) : UploadEvent → Prop
  | .get peerId chunkId clk => ∀ act, (i, act) ∉ (inboundGet peerId chunkId clk u).2
  | _ => True

/-- What a step can do to slot `i`, and log about it, when no GET touches the slot. -/
inductive SlotStep (env : Env) (i : Nat) (u : Uploads) (slot : UploadSlot) :
    UploadEvent → List StreamAction → UploadSlot → Prop
  | same (ev : UploadEvent) : SlotStep env i u slot ev [] slot
  | ack {p : Int} {n : Nat} {clk : Clock} {net : NetworkParams} {acts : List StreamAction}
      {slot' : UploadSlot} : getUploadIndexById p u = some (i, slot) →
      slot.takeAck env.smoothing n clk u.net = .ok (slot', net, acts) → n ≠ maxPacketPerChunk →
      SlotStep env i u slot (.ack p n clk) acts slot'
  | last {p : Int} {clk : Clock} {net : NetworkParams} {acts : List StreamAction}
      {slot' : UploadSlot} : getUploadIndexById p u = some (i, slot) →
      slot.takeAck env.smoothing maxPacketPerChunk clk u.net = .ok (slot', net, acts) →
      SlotStep env i u slot (.ack p maxPacketPerChunk clk) (acts ++ [.aborted]) slot'.abort
  | send (pass : Nat → Pass) : getUploadIndexById slot.uploadId u = some (i, slot) →
      slot.uploadId ≠ idNull → SlotStep env i u slot (.send pass)
        (slot.passes env slot.uploadId pass u.net.rto (sendPairs u)).2
        (slot.passes env slot.uploadId pass u.net.rto (sendPairs u)).1
  | abort (ev : UploadEvent) : SlotStep env i u slot ev [.aborted] slot.abort

theorem inboundGet_slot (h : Untouched i u (.get p c clk)) :
    (inboundGet p c clk u).1.slots[i]? = u.slots[i]? ∧ slotLog i (inboundGet p c clk u).2 = [] := by
  refine ⟨?_, List.eq_nil_iff_forall_not_mem.mpr fun act hmem => h act (mem_slotLog.mp hmem)⟩
  simp only [Untouched] at h
  cases hl : getUploadIndexById idNull u with
  | none => rw [inboundGet_none hl]
  | some r =>
    obtain ⟨index, slot⟩ := r
    obtain ⟨index', slot', -, hget⟩ := inboundGet_found hl p c clk
    rw [hget] at h ⊢
    have hindex : index ≠ i := by
      rintro rfl
      exact h _ List.mem_cons_self
    have hindex' : index' ≠ i := by
      rintro rfl
      exact h _ (List.mem_cons_of_mem _ List.mem_cons_self)
    exact (Table.get_set_ne hindex').trans (Table.get_set_ne hindex)

theorem abortUpload_slot (env : Env) (p : Int) (ev : UploadEvent) (hi : u.slots[i]? = some slot) :
    ∃ slot', (abortUpload p u).1.slots[i]? = some slot' ∧
      SlotStep env i u slot ev (slotLog i (abortUpload p u).2) slot' := by
  cases hl : getUploadIndexById p u with
  | none =>
    rw [abortUpload, change_none hl]
    exact ⟨slot, hi, .same ev⟩
  | some r =>
    obtain ⟨j, slot₁⟩ := r
    rw [abortUpload, change_eq hl]
    by_cases hj : j = i
    · subst hj
      have hget := getUploadIndexById_get hl
      rw [hi] at hget
      cases hget
      rw [slotLog_map]
      exact ⟨slot.abort, Table.get_set_self (Table.lookup_lt hl), .abort ev⟩
    · rw [slotLog_map_ne hj]
      exact ⟨slot, (Table.get_set_ne hj).trans hi, .same ev⟩

theorem inboundAck_slot {n : Nat} {clk : Clock} (hi : u.slots[i]? = some slot)
    (hs : inboundAck env p n clk u = .ok (u', l)) : ∃ slot', u'.slots[i]? = some slot' ∧
      SlotStep env i u slot (.ack p n clk) (slotLog i l) slot' := by
  cases hl : getUploadIndexById p u with
  | none =>
    rw [inboundAck_none hl] at hs
    cases hs
    exact ⟨slot, hi, .same _⟩
  | some r =>
    obtain ⟨j, slot₁⟩ := r
    obtain ⟨slot₂, net, acts, htake, rfl, rfl⟩ := inboundAck_found hl hs
    by_cases hj : j = i
    · subst hj
      have hget := getUploadIndexById_get hl
      rw [hi] at hget
      cases hget
      rw [slotLog_map]
      refine ⟨_, Table.get_set_self (Table.lookup_lt hl), ?_⟩
      split_ifs with hn
      · subst hn
        exact .last hl htake
      · rw [List.append_nil]
        exact .ack hl htake hn
    · rw [slotLog_map_ne hj]
      exact ⟨slot, (Table.get_set_ne hj).trans hi, .same _⟩

theorem sendDataPackets_slot (env : Env) (pass : Nat → Pass) (hi : u.slots[i]? = some slot) :
    ∃ slot', (sendDataPackets env pass u).1.slots[i]? = some slot' ∧
      SlotStep env i u slot (.send pass) (slotLog i (sendDataPackets env pass u).2) slot' := by
  by_cases h : getUploadIndexById slot.uploadId u = some (i, slot) ∧ slot.uploadId ≠ idNull
  · obtain ⟨hfound, hid⟩ := h
    obtain ⟨hslot, hlog⟩ := sendLoop_slot env pass (sendPairs u) hfound
    refine ⟨_, getUploadIndexById_get hslot, ?_⟩
    rw [sendDataPackets, ← sendPairs, hlog]
    exact .send pass hfound hid
  · obtain ⟨hslot, hlog⟩ := sendLoop_other env pass (sendPairs u) u
      fun pc hmem slot₁ hfound => by
        have hget := getUploadIndexById_get hfound
        rw [hi] at hget
        cases hget
        have hkey := getUploadIndexById_id hfound
        exact h ⟨hkey ▸ hfound, hkey ▸ (mem_sendPairs hmem).1⟩
    refine ⟨slot, hslot.trans hi, ?_⟩
    rw [sendDataPackets, ← sendPairs, hlog]
    exact .same _

/-- A step that does not touch the slot by a GET is one of those listed. -/
theorem slot_step {ev : UploadEvent} (hs : (uploadMachine env).step ev u = .ok (u', l))
    (hev : Untouched i u ev) (hi : u.slots[i]? = some slot) :
    ∃ slot', u'.slots[i]? = some slot' ∧ SlotStep env i u slot ev (slotLog i l) slot' := by
  cases ev with
  | get p c clk =>
    obtain ⟨hslot, hlog⟩ := inboundGet_slot hev
    rw [Except.ok.inj hs] at hslot hlog
    rw [hlog]
    exact ⟨slot, hslot.trans hi, .same _⟩
  | ack p n clk => exact inboundAck_slot hi hs
  | send clk =>
    have hstep := sendDataPackets_slot env clk hi
    rwa [Except.ok.inj hs] at hstep
  | clean now =>
    obtain ⟨rfl, rfl⟩ := Prod.mk.inj (Except.ok.inj hs)
    split
    · exact ⟨slot, hi, .same _⟩
    · exact abortUpload_slot env _ _ hi
  | abort p =>
    have hstep := abortUpload_slot env p (.abort p) hi
    rwa [Except.ok.inj hs] at hstep

/-! ## Runs -/

variable {Init : Uploads → Prop} {Ok : Uploads → UploadLog → UploadEvent → Prop}

theorem slot_invariant {P : UploadSlot → List StreamAction → Prop}
    (hok : ∀ u log ev, Ok u log ev → Untouched i u ev)
    (h0 : ∀ u, Init u → ∃ slot, u.slots[i]? = some slot ∧ P slot [])
    (hstep : ∀ u log ev slot acts slot', (uploadMachine env).Reach Init Ok u log → Ok u log ev →
      u.slots[i]? = some slot → P slot (slotLog i log) → SlotStep env i u slot ev acts slot' →
      P slot' (slotLog i log ++ acts))
    (h : (uploadMachine env).Reach Init Ok u log) :
    ∃ slot, u.slots[i]? = some slot ∧ P slot (slotLog i log) := by
  refine h.invariant (I := fun u log => ∃ slot, u.slots[i]? = some slot ∧ P slot (slotLog i log)) h0
    fun u log ev u' l hr hI hev hs => ?_
  obtain ⟨slot, hi, hP⟩ := hI
  obtain ⟨slot', hi', hslot⟩ := slot_step hs (hok _ _ _ hev) hi
  refine ⟨slot', hi', ?_⟩
  rw [slotLog_append]
  exact hstep _ _ _ _ _ _ hr hev hi hP hslot

variable {P : UploadSlot → Epoch → Prop} {Q : Epoch → StreamAction → Prop} {R : Int → Int → Int → Prop}

/-- The chunks a slot's packets can be taken from are related to its own by `R`. -/
def PairsAt (R : Int → Int → Int → Prop) (i : Nat) (u : Uploads) : Prop :=
  ∀ slot c, u.slots[i]? = some slot → (slot.uploadId, c) ∈ sendPairs u →
    R slot.uploadId slot.uploadChunkId c

theorem Kept.slotStep (hk : Kept env P Q R) {ev : UploadEvent} {acts : List StreamAction}
    (hi : u.slots[i]? = some slot) (hR : ∀ clk, ev = .send clk → PairsAt R i u)
    (hs : SlotStep env i u slot ev acts slot') : Keeps P Q slot acts slot' := by
  cases hs with
  | same => exact .refl slot
  | ack hfound htake hn => exact hk.ack _ _ _ _ _ _ _ htake
  | last hfound htake => exact (hk.ack _ _ _ _ _ _ _ htake).trans (hk.abort _)
  | abort => exact hk.abort slot
  | send clk hfound hid =>
    -- the peer and the chunk of the slot stay as they are from pass to pass
    have hpath : Path (fun s acts s' => s.uploadChunkId = slot.uploadChunkId →
        s'.uploadChunkId = slot.uploadChunkId ∧ Keeps P Q s acts s') slot
        (slot.passes env slot.uploadId clk u.net.rto (sendPairs u)).2
        (slot.passes env slot.uploadId clk u.net.rto (sendPairs u)).1 :=
      passes_path env clk u.net.rto (sendPairs u) slot (fun c s k hmem hsid hchunk => by
        have hpass := hk.pass (hsid ▸ hid)
          (by rw [hsid, hchunk]; exact hR clk rfl slot c hi hmem) (clk k) u.net.rto
        rw [hsid] at hpass
        exact ⟨(sendPass_ids _ _ _ _ _ _).2.trans hchunk, hpass⟩) rfl
    have hkept := hpath.invariant_nil
      (I := fun s acts => s.uploadChunkId = slot.uploadChunkId ∧ Keeps P Q slot acts s)
      (fun s acts acts' s' hs hmove => by
        obtain ⟨hchunk, hkeeps⟩ := hmove hs.1
        exact ⟨hchunk, hs.2.trans hkeeps⟩) ⟨rfl, .refl slot⟩
    exact hkept.2

/-- What each slot operation keeps, a run keeps of a slot that its GETs do not touch. -/
theorem Kept.run (hk : Kept env P Q R) (hok : ∀ u log ev, Ok u log ev → Untouched i u ev)
    (hR : ∀ u log clk, Ok u log (.send clk) → PairsAt R i u)
    (h0 : ∀ u, Init u → ∃ slot, u.slots[i]? = some slot ∧ P slot Epoch.empty)
    (h : (uploadMachine env).Reach Init Ok u log) :
    ∃ slot, u.slots[i]? = some slot ∧ P slot (epoch i log) := by
  have hepoch : epoch i log = (slotLog i log).foldl Epoch.next Epoch.empty := epoch_slotLog i [] log
  rw [hepoch]
  refine slot_invariant (P := fun slot acts => P slot (acts.foldl Epoch.next Epoch.empty)) hok h0
    (fun u log ev slot acts slot' _ hev hi hP hs => ?_) h
  rw [List.foldl_append]
  exact (hk.slotStep hi (fun clk he => hR u log clk (he ▸ hev)) hs _ hP).2

end Bittorrent
