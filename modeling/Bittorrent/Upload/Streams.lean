import Bittorrent.Model.Upload

/-!
# Upload slots and their history

`epoch i log` is what the log says about slot `i` since the GET that started its stream. A property
`P` of a slot and its epoch, and a property `Q` of an epoch and the next action, hold in every
reachable state and for every logged action (`Good`) once each slot operation keeps them (`Kept`):
`Kept.send`, `Kept.ack`, `Kept.abort` and `Kept.clean` lift that to the handlers, and the GET, the
only one that opens a slot, is left to each property.

The history is read off the log and nothing is added to the state. `epoch` folds the actions of one slot: a
GET begins it anew, a first transmission is appended, an acknowledgement adds its count. An action about
another slot does not move it (`epoch_append_ne`), so a write to slot `i` need only be checked for slot `i`
(`Good.write`), which is what makes a property of one slot and its history a property of all of them.
-/

namespace Bittorrent

/-! ## The slot a function works on -/

variable {u : Uploads} {p : Int} {i j : Nat} {slot slot' : UploadSlot}

theorem getUploadIndexById_get (h : getUploadIndexById p u = some (i, slot)) :
    u.slots[i]? = some slot := Table.lookup_get h

theorem getUploadIndexById_id (h : getUploadIndexById p u = some (i, slot)) :
    slot.uploadId = p := Table.lookup_key h

theorem getUploadIndexById_write (h : getUploadIndexById p u = some (i, slot))
    (h' : slot'.uploadId = p) : getUploadIndexById p (u.write i slot') = some (i, slot') :=
  Table.lookup_set h h'

theorem write_write : (u.write i slot).write i slot' = u.write i slot' := by
  simp [Uploads.write, List.set_set]

theorem write_self (h : u.slots[i]? = some slot) : u.write i slot = u := by
  rw [Uploads.write, Table.set_self h]

theorem read_eq {α : Type} {d : α} {f : UploadSlot → α}
    (h : getUploadIndexById p u = some (i, slot)) : u.read p d f = f slot := by
  rw [Uploads.read, h]

theorem change_eq {f : UploadSlot → UploadSlot × List StreamAction}
    (h : getUploadIndexById p u = some (i, slot)) :
    u.change p f = (u.write i (f slot).1, (f slot).2.map (i, ·)) := by
  rw [Uploads.change, h]

theorem change_none {f : UploadSlot → UploadSlot × List StreamAction}
    (h : getUploadIndexById p u = none) : u.change p f = (u, []) := by
  rw [Uploads.change, h]

/-! ## History of a slot -/

/-- What happened in a slot since its stream started: the peer and chunk of the GET, the first
transmissions in order, the packets acknowledged, the window last logged and the largest one, and
the number of window timeouts. -/
structure Epoch where
  asked : Option (Int × Int)
  fresh : List Nat
  acked : Nat
  cwnd : Nat
  peak : Nat
  timeouts : Nat

def Epoch.empty : Epoch := ⟨none, [], 0, 0, 0, 0⟩

def Epoch.next (e : Epoch) : StreamAction → Epoch
  | .started peerId chunkId => { Epoch.empty with asked := some (peerId, chunkId) }
  | .transmitted _ seq _ retransmit =>
    if retransmit then e else { e with fresh := e.fresh ++ [seq] }
  | .acked _ count => { e with acked := e.acked + count }
  | .windowTimeout => { e with timeouts := e.timeouts + 1 }
  | .logWindow size => { e with cwnd := size, peak := max e.peak size }
  | .aborted => Epoch.empty

/-- The epoch of slot `i` after a log. -/
def epoch (i : Nat) (log : UploadLog) : Epoch :=
  log.foldl (fun e a => if a.1 = i then e.next a.2 else e) Epoch.empty

theorem epoch_append (i : Nat) (log : UploadLog) (acts : List StreamAction) :
    epoch i (log ++ acts.map (i, ·)) = acts.foldl Epoch.next (epoch i log) := by
  rw [epoch, List.foldl_append, List.foldl_map]
  simp only [if_true, epoch]

theorem epoch_append_ne (h : j ≠ i) (log : UploadLog) (acts : List StreamAction) :
    epoch i (log ++ acts.map (j, ·)) = epoch i log := by
  rw [epoch, List.foldl_append, List.foldl_map]
  simp only [h, if_false, List.foldl_fixed, epoch]

/-! ## Properties of all slots and of the whole log -/

/-- Each of the actions meets `Q` with the epoch before it. -/
def ActsOk (Q : Epoch → StreamAction → Prop) : Epoch → List StreamAction → Prop
  | _, [] => True
  | e, a :: acts => Q e a ∧ ActsOk Q (e.next a) acts

/-- Every slot meets `P` with its epoch, and every logged action met `Q`. -/
def Good (P : UploadSlot → Epoch → Prop) (Q : Epoch → StreamAction → Prop) (u : Uploads)
    (log : UploadLog) : Prop :=
  (∀ i slot, u.slots[i]? = some slot → P slot (epoch i log)) ∧
    Always (fun pre a => Q (epoch a.1 pre) a.2) log

/-- A slot change that, with its actions, keeps `P` and meets `Q`. -/
def Keeps (P : UploadSlot → Epoch → Prop) (Q : Epoch → StreamAction → Prop) (slot : UploadSlot)
    (acts : List StreamAction) (slot' : UploadSlot) : Prop :=
  ∀ e, P slot e → ActsOk Q e acts ∧ P slot' (acts.foldl Epoch.next e)

variable {P : UploadSlot → Epoch → Prop} {Q : Epoch → StreamAction → Prop} {log : UploadLog}

theorem always_acts (acts : List StreamAction) :
    ∀ {log : UploadLog}, Always (fun pre a => Q (epoch a.1 pre) a.2) log →
      ActsOk Q (epoch i log) acts →
      Always (fun pre a => Q (epoch a.1 pre) a.2) (log ++ acts.map (i, ·)) := by
  induction acts with
  | nil => intro log h _; simpa using h
  | cons a acts ih =>
    intro log h hacts
    obtain ⟨ha, hrest⟩ := hacts
    rw [List.map_cons, List.append_cons]
    refine ih (always_concat.mpr ⟨h, ha⟩) ?_
    rwa [show log ++ [(i, a)] = log ++ [a].map (i, ·) from rfl, epoch_append]

theorem Good.write {acts : List StreamAction} (h : Good P Q u log) (net : NetworkParams)
    (hi : u.slots[i]? = some slot) (hk : Keeps P Q slot acts slot') :
    Good P Q ({ u with net }.write i slot') (log ++ acts.map (i, ·)) := by
  obtain ⟨hP, hQ⟩ := h
  obtain ⟨hacts, hslot⟩ := hk _ (hP i slot hi)
  refine ⟨fun j s hj => ?_, always_acts acts hQ hacts⟩
  rcases Table.get_set_cases (List.getElem?_eq_some_iff.mp hi).1 hj with ⟨rfl, rfl⟩ | ⟨hne, hj⟩
  · rwa [epoch_append]
  · rw [epoch_append_ne (Ne.symm hne)]
    exact hP j s hj

theorem Good.change {f : UploadSlot → UploadSlot × List StreamAction} (h : Good P Q u log)
    (hk : ∀ i slot, getUploadIndexById p u = some (i, slot) → Keeps P Q slot (f slot).2 (f slot).1) :
    Good P Q (u.change p f).1 (log ++ (u.change p f).2) := by
  cases hl : getUploadIndexById p u with
  | none => rw [change_none hl, List.append_nil]; exact h
  | some r =>
    obtain ⟨i, slot⟩ := r
    rw [change_eq hl]
    exact h.write u.net (getUploadIndexById_get hl) (hk i slot hl)

end Bittorrent
