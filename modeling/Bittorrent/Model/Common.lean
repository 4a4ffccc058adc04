import Mathlib.Algebra.Ring.Int.Defs
import Mathlib.Algebra.Ring.Nat
import Mathlib.Data.List.Basic
import Mathlib.Tactic.Common

/-!
# Shared definitions (`common.h`, `chunk.h`, `bt_parse.h`)

Constants, memory and hashes, the chunk tables, the peer list, and what a peer is given when it
starts (`Env`). Unsigned C integers are `Nat` with an explicit wrap where a wrap can be reached,
signed ones are `Int`; `milli_time` is a `Clock`, an arbitrary reading at every call.
-/

namespace Bittorrent

/-! ## Constants -/

def btChunkSize : Nat := 512 * 1024
def sha1HashSize : Nat := 20
def headerLength : Nat := 16
def magicNumber : Nat := 15441
def versionNumber : Nat := 1
def maxPayloadSize : Nat := 1484
def maxPacketPerChunk : Nat := 354
def chunkNumberAndPaddingSize : Nat := 4
def chunkPerPacket : Nat := 74
/-- No valid identity can be 0: the id of a free stream slot. -/
def idNull : Int := 0
def abortCoeff : Int := 4

/-! ## C integers, clocks and faults -/

/-- An `unsigned` of 32 bits. -/
def wrap32 (n : Nat) : Nat := n % 2 ^ 32

/-- A value converted to a 32-bit `int`. -/
def toInt32 (x : Int) : Int := x.bmod (2 ^ 32)

theorem toInt32_eq {x : Int} (h0 : 0 ≤ x) (h1 : x < 2 ^ 31) : toInt32 x = x :=
  Int.bmod_eq_of_le (by omega) (by omega)

/-- An `int` converted to `unsigned`. -/
def toUnsigned (x : Int) : Nat := (x % 2 ^ 32).toNat

/-- An `unsigned long` of microseconds since the epoch. -/
abbrev Time := BitVec 64

/-- The successive results of `milli_time` within one step. -/
abbrev Clock := Nat → Time

/-- `milli_time() - stamp > limit`: the `int` limit is converted to `unsigned long`. -/
def expired (now stamp : Time) (limit : Int) : Bool := BitVec.ofInt 64 limit < now - stamp

theorem expired_iff {now stamp : Time} {limit : Int} (h0 : 0 ≤ limit) (h1 : limit < 2 ^ 31) :
    expired now stamp limit = true ↔ limit < (now - stamp).toNat := by
  have hlimit : ((BitVec.ofInt 64 limit).toNat : Int) = limit := by
    rw [BitVec.toNat_ofInt]
    omega
  rw [expired, decide_eq_true_eq, BitVec.lt_def]
  omega

/-- `ABORT_COEFF * RTO`, an `int`. -/
def abortLimit (rto : Int) : Int := toInt32 (abortCoeff * rto)

/-- Why a step has no next state. -/
inductive Fault
  /-- A NULL or dangling pointer is followed. -/
  | nullDeref
  /-- `memcpy` writes past the end of its buffer. -/
  | overflow
  /-- The program calls `exit`. -/
  | exit
  /-- A loop never ends. -/
  | diverge
  deriving DecidableEq, Repr

/-- The fault a run stopped with. -/
def faultOf {α : Type} : Except Fault α → Option Fault
  | .error f => some f
  | .ok _ => none

/-! ## Memory and hashes -/

/-- The bytes from a pointer on, also past the end of the object it points to. -/
abbrev Memory := Nat → UInt8

/-- A SHA-1 hash, `uint8_t hash[SHA1_HASH_SIZE]`. -/
abbrev Hash := { bytes : List UInt8 // bytes.length = sha1HashSize }

/-- `n` bytes of memory from offset `off`. -/
def readBytes (m : Memory) (off n : Nat) : List UInt8 := (List.range n).map fun k => m (off + k)

@[simp] theorem readBytes_length (m : Memory) (off n : Nat) : (readBytes m off n).length = n := by
  simp [readBytes]

theorem readBytes_slice (m : Memory) (off n k l : Nat) :
    ((readBytes m off n).drop k).take l = readBytes m (off + k) (min l (n - k)) := by
  apply List.ext_getElem
  · simp
  · intro j h1 h2
    simp [readBytes, Nat.add_assoc]

theorem readBytes_append (m : Memory) (off n n' : Nat) :
    readBytes m off (n + n') = readBytes m off n ++ readBytes m (off + n) n' := by
  simp [readBytes, List.range_add, Function.comp_def, Nat.add_assoc]

theorem readBytes_head (m : Memory) (off n : Nat) : (readBytes m off (n + 1))[0]? = some (m off) := by
  simp [readBytes]

/-- `memcpy(dst + off, src, n)`. -/
def copyBytes (dst : Memory) (off : Nat) (src : Memory) (n : Nat) : Memory := fun k =>
  if off ≤ k ∧ k < off + n then src (k - off) else dst k

theorem readBytes_copyBytes (dst : Memory) (off : Nat) (src : Memory) (n : Nat) :
    readBytes (copyBytes dst off src n) off n = readBytes src 0 n := by
  refine List.map_congr_left fun k hk => ?_
  have hk := List.mem_range.mp hk
  rw [copyBytes, if_pos (by omega), show off + k - off = 0 + k by omega]

theorem readBytes_copyBytes_of_disjoint {dst src : Memory} {off n off' n' : Nat}
    (h : off' + n' ≤ off ∨ off + n ≤ off') :
    readBytes (copyBytes dst off src n) off' n' = readBytes dst off' n' := by
  refine List.map_congr_left fun k hk => ?_
  have hk := List.mem_range.mp hk
  rw [copyBytes, if_neg (by omega)]

/-- The hash at offset `off`. -/
def readHash (m : Memory) (off : Nat) : Hash := ⟨readBytes m off sha1HashSize, readBytes_length ..⟩

/-- `ntohs(*(unsigned short*)(m+off))`. -/
def ntohs (m : Memory) (off : Nat) : Nat := (m off).toNat * 2 ^ 8 + (m (off + 1)).toNat

/-- `ntohl(*(unsigned int*)(m+off))`. -/
def ntohl (m : Memory) (off : Nat) : Nat := ntohs m off * 2 ^ 16 + ntohs m (off + 2)

/-! ## Chunk tables -/

inductive ChunkState
  | owned | receiving | notStarted
  deriving DecidableEq, Repr

/-- `struct Chunk`; `data` is NULL or a buffer of `BT_CHUNK_SIZE` bytes. -/
structure Chunk where
  id : Int
  hash : Hash
  state : ChunkState
  data : Option Memory
  receivedSeqNumber : Int
  receivedByteNumber : Nat

/-- `struct Request`; `chunk_number` is the length of `chunks`. -/
structure Request where
  filename : Option String
  chunks : List Chunk

/-! ## Peers and the environment -/

/-- `struct sockaddr_in`. -/
structure Addr where
  sinAddr : Nat
  sinPort : Nat
  deriving DecidableEq

/-- `bt_peer_t`. -/
structure BtPeer where
  id : Int
  addr : Addr

/-- The two smoothing expressions of `infer_RTT`, computed in `double` and truncated to `int`. -/
structure Smoothing where
  rtt : Int → Int → Int
  deviation : Int → Int → Int

/-- A file that is only read. One that cannot be opened has no bytes. -/
structure DataFile where
  size : Nat
  bytes : Memory

/-- What a running peer never changes: its peer list and identity, the SHA-1 function, the master
data file, the table of all chunks, and how many bytes a `write` to a file at an offset writes. -/
structure Env where
  peers : List BtPeer
  identity : Int
  smoothing : Smoothing
  shahash : List UInt8 → Hash
  masterData : DataFile
  totalChunkTable : List Chunk
  writes : String → Int → Nat

/-- `bt_peer_id`: the first listed peer with the sender's port, -1 if there is none. -/
def btPeerId (env : Env) (peerAddr : Addr) : Int :=
  match env.peers.find? fun p => p.addr.sinPort = peerAddr.sinPort with
  | some p => p.id
  | none => -1

/-- `find_addr` and `bt_peer_info`; `none` is the NULL address, on which `sendto` fails. -/
def findAddr (env : Env) (peerId : Int) : Option Addr :=
  (env.peers.find? fun p => p.id = peerId).map (·.addr)

/-- A peer that knows one other peer, for runs on fixed inputs: its master data are two chunks of zeros,
its table of all chunks is empty and its hash function reads one byte. -/
def sampleEnv : Env where
  peers := [⟨1, ⟨0, 1⟩⟩]
  identity := 2
  smoothing := ⟨fun _ new => new, fun _ new => new⟩
  shahash bytes := ⟨List.replicate sha1HashSize (bytes.headD 0), by simp⟩
  masterData := ⟨2 * btChunkSize, fun _ => 0⟩
  totalChunkTable := []
  writes _ _ := btChunkSize

/-- A hash of one repeated byte. -/
def sampleHash (byte : UInt8) : Hash := ⟨List.replicate sha1HashSize byte, by simp⟩

/-! ## Files -/

/-- `read_file`: up to `length` bytes from `offset`, as many as there are; the rest of `buf` stays. A
negative `lseek` fails and leaves position 0. -/
def readFile (file : DataFile) (buf : Memory) (length : Nat) (offset : Int) : Memory :=
  copyBytes buf 0 (fun k => file.bytes (offset.toNat + k)) (min length (file.size - offset.toNat))

theorem readBytes_readFile {file : DataFile} {length : Nat} {offset : Int}
    (h : offset.toNat + length ≤ file.size) (buf : Memory) :
    readBytes (readFile file buf length offset) 0 length = readBytes file.bytes offset.toNat length := by
  rw [readFile, Nat.min_eq_left (by omega), readBytes_copyBytes]
  refine List.map_congr_left fun k _ => ?_
  rw [Nat.zero_add]

/-- `write_file`, from `offset` likewise, with the number of bytes that `write` writes. -/
def writeFile (file : Memory) (buf : Memory) (length : Nat) (offset : Int) (written : Nat) : Memory :=
  copyBytes file offset.toNat buf (min length written)

end Bittorrent
