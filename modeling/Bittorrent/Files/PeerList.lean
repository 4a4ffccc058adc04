import Bittorrent.Files.Reading
import Bittorrent.Files.Scanning
import Bittorrent.Model.Config
import Mathlib.Data.List.TakeWhile

/-!
# The peer list

A peer list is made of records, `<id> <host> <port>`, of comments, and of lines of white space. What it says
is said without the parser: the address of a peer is that of the last record with its id. The list that
`bt_parse_peer_list` builds has the last record in front, so a search finds that one; a line of white space
lists the record before it again, which no search can tell (`find?_listed`).

`sscanf` leaves the locals of the loop as they were when it finds nothing, so a line of white space adds the
last record again. `listed` says that without the parser, and the loop is followed with the locals of the
last record as its invariant (`LocalsOf`, `parsePeerLines_lists`). The list grows at its front; a search
from there finds the last record that fits, and a record that is there twice is found in the same place
(`find?_listed`).
-/

namespace Bittorrent

variable {terminated : Bool} {gethostbyname : List UInt8 → Option Nat} {stack : PeerLocals}

/-! ## Numbers -/

/-- A decimal `int` as it is written. -/
structure Numeral where
  negative : Bool
  digits : List UInt8
  digits_ne_nil : digits ≠ []
  digits_ok : ∀ c ∈ digits, isdigit c = true
  fits : decimalValue digits < 2 ^ 31 + (if negative then 1 else 0)

namespace Numeral

variable (n : Numeral)

def value : Int := if n.negative then -decimalValue n.digits else decimalValue n.digits

def text : List UInt8 := (if n.negative then [minusSign] else []) ++ n.digits

theorem toInt32_value : toInt32 (clampLong n.value) = n.value := by
  have hfits := n.fits
  rw [value, clampLong, toInt32]
  split_ifs at hfits ⊢ with hneg <;> (rw [Int.bmod_eq_of_le_mul_two] <;> omega)

theorem scan {rest : List UInt8} (hrest : ∀ c ∈ rest.head?, isdigit c = false) :
    scanInt (n.text ++ rest) = some (n.value, rest) := by
  rw [text, scanInt_number n.negative n.digits_ne_nil n.digits_ok hrest]
  exact congrArg (fun x => some (x, rest)) n.toInt32_value

theorem scan_space {rest : List UInt8} (hrest : ∀ c ∈ rest.head?, isdigit c = false) :
    scanInt (space :: (n.text ++ rest)) = some (n.value, rest) := by
  have hskip : scanInt (space :: (n.text ++ rest)) = scanInt (n.text ++ rest) := by
    unfold scanInt
    rw [List.dropWhile_cons_of_pos (by decide)]
  rw [hskip, n.scan hrest]

theorem text_plain : ∀ c ∈ n.text, isspace c = false ∧ c ≠ 0 ∧ c ≠ 35 := by
  intro c hc
  rcases List.mem_append.mp hc with hsign | hdigit
  · split_ifs at hsign
    · rw [List.mem_singleton.mp hsign]
      decide
    · cases hsign
  · obtain ⟨hspace, -, -, hzero, -, hhash⟩ := not_space_of_isdigit (n.digits_ok c hdigit)
    exact ⟨hspace, hzero, hhash⟩

theorem text_ne_nil : n.text ≠ [] := List.append_ne_nil_of_right_ne_nil _ n.digits_ne_nil

end Numeral

/-! ## What a peer list says -/

/-- A line `<id> <host> <port>`. -/
structure PeerRecord where
  id : Numeral
  host : List UInt8
  port : Numeral
  host_ne_nil : host ≠ []
  host_ok : ∀ c ∈ host, isspace c = false ∧ c ≠ 0

namespace PeerRecord

variable (r : PeerRecord)

def text : List UInt8 := r.id.text ++ space :: (r.host ++ space :: r.port.text)

def locals : PeerLocals := ⟨r.id.value, r.host, r.port.value⟩

/-- The id as a `short`. -/
def peerId : Int := r.id.value.bmod (2 ^ 16)

def sinPort : Nat := (r.port.value % 2 ^ 16).toNat

def peer (gethostbyname : List UInt8 → Option Nat) : BtPeer :=
  ⟨r.peerId, ⟨(gethostbyname r.host).getD 0, r.sinPort⟩⟩

end PeerRecord

inductive PeerLine
  | peer (r : PeerRecord)
  /-- A line that begins with '#'. -/
  | comment (text : List UInt8) (h : newline ∉ text)
  /-- White space. -/
  | blank (text : List UInt8) (h : ∀ c ∈ text, isspace c = true ∧ c ≠ newline)

namespace PeerLine

def text : PeerLine → List UInt8
  | peer r => r.text
  | comment text _ => 35 :: text
  | blank text _ => text

def record? : PeerLine → Option PeerRecord
  | peer r => some r
  | _ => none

def records (lines : List PeerLine) : List PeerRecord := lines.filterMap record?

/-- The first line that is not a comment is a record. -/
def RecordFirst : List PeerLine → Prop
  | [] => True
  | peer _ :: _ => True
  | comment _ _ :: lines => RecordFirst lines
  | blank _ _ :: _ => False

/-- What is listed, line after line; `last` is the record before. -/
def listed : List PeerLine → Option PeerRecord → List PeerRecord
  | [], _ => []
  | peer r :: lines, _ => r :: listed lines (some r)
  | comment _ _ :: lines, last => listed lines last
  | blank _ _ :: lines, last => last.toList ++ listed lines last

end PeerLine

/-- A file of these lines. The last line may have no newline. -/
def peerFile (terminated : Bool) (lines : List PeerLine) : List UInt8 :=
  (withNewlines terminated (lines.map PeerLine.text)).flatten

/-- Each line is read by one `fgets`, the last one too. -/
structure PeersReadAtOnce (terminated : Bool) (lines : List PeerLine) : Prop where
  short : ∀ line ∈ withNewlines terminated (lines.map PeerLine.text), line.length ≤ 254
  last : terminated = true ∨ ∀ text ∈ (lines.map PeerLine.text).getLast?, text ≠ []

/-! ## Searches -/

theorem find?_listed_last (q : PeerRecord → Bool) (lines : List PeerLine) (last : Option PeerRecord) :
    (last.toList ++ PeerLine.listed lines last).reverse.find? q =
      (last.toList ++ PeerLine.records lines).reverse.find? q := by
  induction lines generalizing last with
  | nil => rfl
  | cons line lines ih =>
    cases line with
    | peer r =>
      have hrest := ih (some r)
      have hrecords : PeerLine.records (.peer r :: lines) = (some r).toList ++ PeerLine.records lines := rfl
      have hlisted : PeerLine.listed (.peer r :: lines) last =
        (some r).toList ++ PeerLine.listed lines (some r) := rfl
      simp only [hrecords, hlisted, List.reverse_append, List.find?_append] at hrest ⊢
      rw [hrest]
    | comment text h => exact ih last
    | blank text h =>
      have hrest := ih last
      have hrecords : PeerLine.records (.blank text h :: lines) = PeerLine.records lines := rfl
      have hlisted : PeerLine.listed (.blank text h :: lines) last =
        last.toList ++ PeerLine.listed lines last := rfl
      rw [hrecords, hlisted, List.reverse_append, List.find?_append, hrest, List.reverse_append,
        List.find?_append, Option.or_assoc, Option.or_self]

theorem find?_listed (q : PeerRecord → Bool) (lines : List PeerLine) :
    (PeerLine.listed lines none).reverse.find? q = (PeerLine.records lines).reverse.find? q :=
  find?_listed_last q lines none

/-! ## Lines -/

namespace PeerLine

/-- A line with its newline, if it has one. -/
def Reads (line : List UInt8) (l : PeerLine) : Prop :=
  ∃ tail, (tail = [] ∨ tail = [newline]) ∧ line = l.text ++ tail ∧ line ≠ []

theorem text_plain (l : PeerLine) : newline ∉ l.text := by
  have hnewline : ∀ c, isspace c = false → c ≠ newline := by
    rintro c hc rfl
    cases hc
  cases l with
  | peer r =>
    simp only [text, PeerRecord.text, List.mem_append, List.mem_cons, not_or]
    refine ⟨fun hmem => ?_, by decide, fun hmem => ?_, by decide, fun hmem => ?_⟩
    · exact hnewline _ (r.id.text_plain _ hmem).1 rfl
    · exact hnewline _ (r.host_ok _ hmem).1 rfl
    · exact hnewline _ (r.port.text_plain _ hmem).1 rfl
  | comment text h => exact fun hmem => h ((List.mem_cons.mp hmem).resolve_left (by decide))
  | blank text h => exact fun hmem => (h _ hmem).2 rfl

end PeerLine

theorem withNewlines_reads (lines : List PeerLine)
    (hlast : terminated = true ∨ ∀ text ∈ (lines.map PeerLine.text).getLast?, text ≠ []) :
    List.Forall₂ PeerLine.Reads (withNewlines terminated (lines.map PeerLine.text)) lines := by
  induction lines with
  | nil => exact .nil
  | cons l lines ih =>
    cases lines with
    | nil =>
      refine .cons ?_ .nil
      cases terminated with
      | true => exact ⟨[newline], Or.inr rfl, rfl, by simp⟩
      | false =>
        have hne := hlast.resolve_left Bool.false_ne_true l.text rfl
        exact ⟨[], Or.inl rfl, (List.append_nil _).symm, hne⟩
    | cons l' lines => exact .cons ⟨[newline], Or.inr rfl, rfl, by simp⟩ (ih hlast)

theorem fileLines_peerFile {lines : List PeerLine} (h : PeersReadAtOnce terminated lines) :
    fileLines (peerFile terminated lines) = withNewlines terminated (lines.map PeerLine.text) := by
  have hlines : ∀ line ∈ withNewlines terminated (lines.map PeerLine.text), IsLine line := by
    refine isLine_withNewlines (fun text hmem => ?_) h.last
    obtain ⟨l, -, rfl⟩ := List.mem_map.mp hmem
    exact l.text_plain
  rw [peerFile, fileLines_withNewlines, flatMap_fileLines hlines h.short]

theorem scanPeer_record (r : PeerRecord) {tail : List UInt8} (htail : tail = [] ∨ tail = [newline])
    (locals : PeerLocals) : scanPeer (r.text ++ tail) locals = some r.locals := by
  have hplain : 0 ∉ r.text ++ tail := by
    simp only [PeerRecord.text, List.mem_append, List.mem_cons, not_or]
    refine ⟨⟨fun hmem => (r.id.text_plain 0 hmem).2.1 rfl, by decide, fun hmem => (r.host_ok 0 hmem).2 rfl, by decide,
      fun hmem => (r.port.text_plain 0 hmem).2.1 rfl⟩, ?_⟩
    rcases htail with rfl | rfl <;> decide
  have hstring : cString (r.text ++ tail ++ []) = r.text ++ tail := cString_front hplain (by simp)
  rw [List.append_nil] at hstring
  have htext : r.text ++ tail =
      r.id.text ++ space :: (r.host ++ space :: (r.port.text ++ tail)) := by simp [PeerRecord.text]
  have hid : scanInt (r.id.text ++ space :: (r.host ++ space :: (r.port.text ++ tail))) =
      some (r.id.value, space :: (r.host ++ space :: (r.port.text ++ tail))) := r.id.scan (by simp [isdigit, space])
  have hhost : scanWord (space :: (r.host ++ space :: (r.port.text ++ tail))).length
      (space :: (r.host ++ space :: (r.port.text ++ tail))) = some (r.host, space :: (r.port.text ++ tail)) :=
    scanWord_word r.host_ne_nil (fun c hc => (r.host_ok c hc).1) (by simp [isspace, space])
      (by simp only [List.length_cons, List.length_append]; omega)
  have hport : scanInt (space :: (r.port.text ++ tail)) = some (r.port.value, tail) :=
    r.port.scan_space (by rcases htail with rfl | rfl <;> simp [isdigit, newline])
  rw [htext] at hstring ⊢
  simp only [scanPeer, hstring, hid, hhost, hport]
  rfl

theorem scanPeer_blank {text : List UInt8} (htext : ∀ c ∈ text, isspace c = true) (locals : PeerLocals) :
    scanPeer text locals = some locals := by
  have hplain : 0 ∉ text := fun hmem => absurd (htext 0 hmem) (by decide)
  have hstring : cString (text ++ []) = text := cString_front hplain (by simp)
  rw [List.append_nil] at hstring
  have hdrop : text.dropWhile isspace = [] := List.dropWhile_eq_nil_iff.mpr htext
  have hscan : scanInt text = none := by
    unfold scanInt
    simp only [hdrop]
    rfl
  simp only [scanPeer, hstring, hscan, hdrop, if_true]

/-! ## The loop -/

/-- What the locals hold behind a record. -/
def LocalsOf (locals : PeerLocals) (last : Option PeerRecord) : Prop := ∀ r ∈ last, locals = r.locals

theorem parsePeerLines_lists {line : List UInt8} {locals : PeerLocals} {r : PeerRecord}
    (hhead : line.head? ≠ some 35) (hscan : scanPeer line locals = some r.locals)
    (hhost : (gethostbyname r.host).isSome = true) (pieces : List (List UInt8)) (peers : List BtPeer) :
    parsePeerLines gethostbyname (line :: pieces) locals peers =
      parsePeerLines gethostbyname pieces r.locals (r.peer gethostbyname :: peers) := by
  obtain ⟨host, hhost⟩ := Option.isSome_iff_exists.mp hhost
  have hname : gethostbyname r.locals.hostname = some host := hhost
  have hpeer : r.peer gethostbyname = btPeer r.locals host := by
    rw [PeerRecord.peer, hhost]
    rfl
  rw [parsePeerLines, if_neg hhead, hpeer]
  simp only [hscan, hname]

theorem parsePeerLines_reads {pieces : List (List UInt8)} {lines : List PeerLine}
    (hreads : List.Forall₂ PeerLine.Reads pieces lines)
    (hhosts : ∀ r ∈ PeerLine.records lines, (gethostbyname r.host).isSome = true) :
    ∀ (last : Option PeerRecord) (locals : PeerLocals) (peers : List BtPeer), LocalsOf locals last →
      (last = none → PeerLine.RecordFirst lines) → (∀ r ∈ last, (gethostbyname r.host).isSome = true) →
      parsePeerLines gethostbyname pieces locals peers =
        .ok ((PeerLine.listed lines last).reverse.map (fun r => r.peer gethostbyname) ++ peers) := by
  induction hreads with
  | nil =>
    intro last locals peers _ _ _
    rfl
  | @cons line l pieces lines hline _ ih =>
    intro last locals peers hlocals hfirst hresolved
    obtain ⟨tail, htail, rfl, hne⟩ := hline
    cases l with
    | peer r =>
      have hhost := hhosts r List.mem_cons_self
      have hhead : (r.text ++ tail).head? ≠ some 35 := by
        rw [PeerRecord.text, List.append_assoc, List.head?_append_of_ne_nil _ r.id.text_ne_nil]
        intro hhead
        exact (r.id.text_plain 35 (List.mem_of_mem_head? hhead)).2.2 rfl
      have hrest := ih (fun r' hmem => hhosts r' (List.mem_cons_of_mem _ hmem)) (some r) r.locals
        (r.peer gethostbyname :: peers) (fun _ hr => by cases hr; rfl)
        (fun hnone => by cases hnone) (fun _ hr => by cases hr; exact hhost)
      refine (parsePeerLines_lists hhead (scanPeer_record r htail locals) hhost _ _).trans (hrest.trans ?_)
      simp [PeerLine.listed]
    | comment text h =>
      rw [parsePeerLines, if_pos (by simp [PeerLine.text])]
      exact ih hhosts last locals peers hlocals hfirst hresolved
    | blank text h =>
      obtain ⟨r, rfl⟩ := Option.ne_none_iff_exists'.mp hfirst
      have hspace : ∀ c ∈ text ++ tail, isspace c = true := by
        intro c hc
        rcases List.mem_append.mp hc with hc | hc
        · exact (h c hc).1
        · rcases htail with rfl | rfl
          · cases hc
          · rw [List.mem_singleton.mp hc]
            rfl
      have hhead : (text ++ tail).head? ≠ some 35 := by
        intro hhead
        exact absurd (hspace 35 (List.mem_of_mem_head? hhead)) (by decide)
      have hhost := hresolved r rfl
      obtain rfl := hlocals r rfl
      have hrest := ih hhosts (some r) r.locals (r.peer gethostbyname :: peers) hlocals
        (fun hnone => by cases hnone) hresolved
      refine (parsePeerLines_lists hhead (scanPeer_blank hspace _) hhost _ _).trans (hrest.trans ?_)
      simp [PeerLine.listed]

/-! ## The parsed list -/

/-- The last record that satisfies `q`. -/
def PeerLine.lastRecord (lines : List PeerLine) (q : PeerRecord → Bool) : Option PeerRecord :=
  (PeerLine.records lines).reverse.find? q

theorem parsePeerLines_file {lines : List PeerLine} (stack : PeerLocals) (hread : PeersReadAtOnce terminated lines)
    (hfirst : PeerLine.RecordFirst lines)
    (hhosts : ∀ r ∈ PeerLine.records lines, (gethostbyname r.host).isSome = true) :
    ∃ peers, parsePeerLines gethostbyname (fileLines (peerFile terminated lines)) stack [] = .ok peers ∧
      ∀ (q : BtPeer → Bool), peers.find? q =
        (PeerLine.lastRecord lines fun r => q (r.peer gethostbyname)).map fun r => r.peer gethostbyname := by
  refine ⟨(PeerLine.listed lines none).reverse.map fun r => r.peer gethostbyname, ?_, fun q => ?_⟩
  · have hparse := parsePeerLines_reads (withNewlines_reads lines hread.last) hhosts none stack []
      (fun _ hr => by cases hr) (fun _ => hfirst) (fun _ hr => by cases hr)
    rw [fileLines_peerFile hread, hparse, List.append_nil]
  · rw [List.find?_map, PeerLine.lastRecord, ← find?_listed]
    rfl

end Bittorrent
