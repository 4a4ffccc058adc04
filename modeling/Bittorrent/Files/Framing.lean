import Bittorrent.Files.Scanning
import Bittorrent.Lib.Lines
import Bittorrent.Model.UserInput

/-!
# The framing of user input

The unfinished line stands at the front of the buffer, but what is behind it was shifted there together with
it, or was left over from before the shift. A call gives the complete lines to `handle_line` and keeps the rest
exactly if the byte behind what it reads is a NUL (`process_iff`); if that is so in every call, the lines
handled are those of the whole input (`lines_framed`).

`HoldsText` describes the buffer in three parts: the text from its start, `cur`, and the one byte behind the
text, which decides what `strchr` finds. Each round of the loop handles a line and shifts, and the byte
behind the text goes along (`HoldsText.shift`), so it decides how the loop ends: a NUL stops it
(`processLines_done`), any other byte is left behind the text or read as part of a line
(`processLines_stale`). Between calls the invariant is `HoldsLine`; a read overwrites the NUL behind the
unfinished line, and what follows the bytes read is left over from before. `run_holdsLine` is the induction
over the calls.
-/

namespace Bittorrent

variable {text line input : List UInt8} {last : UInt8} {u u' : UserIobuf} {fuel : Nat}

/-! ## Strings in the buffer -/

theorem strchr_newline (hline : newline ∉ line) (hplain : 0 ∉ line) (rest : List UInt8) :
    strchr newline (line ++ newline :: rest) = some line.length := by
  induction line with
  | nil => exact if_pos rfl
  | cons b line ih =>
    rw [List.mem_cons, not_or] at hline hplain
    rw [List.cons_append, strchr, if_neg (Ne.symm hline.1), if_neg (Ne.symm hplain.1), ih hline.2 hplain.2]
    rfl

theorem strchr_none (hline : newline ∉ line) (rest : List UInt8) :
    strchr newline (line ++ 0 :: rest) = none := by
  induction line with
  | nil => rfl
  | cons b line ih =>
    rw [List.mem_cons, not_or] at hline
    rw [List.cons_append, strchr, if_neg (Ne.symm hline.1), ih hline.2]
    split_ifs <;> rfl

theorem cString_set (hplain : 0 ∉ line) (rest : List UInt8) :
    cString ((line ++ newline :: rest).set line.length 0) = line := by
  rw [List.set_append_right _ _ (Nat.le_refl _), Nat.sub_self, List.set_cons_zero]
  exact cString_front hplain (by simp)

theorem shift_buf {rest : List UInt8} (hsize : u.buf.length = userbufSize + 1)
    (hbuf : u.buf = line ++ newline :: rest) :
    (u.shift line.length).buf = rest ++ (line ++ 0 :: rest).drop (userbufSize - line.length) := by
  have hset : u.buf.set line.length 0 = line ++ 0 :: rest := by
    rw [hbuf, List.set_append_right _ _ (Nat.le_refl _), Nat.sub_self]
    rfl
  have hdrop : (line ++ 0 :: rest).drop (line.length + 1) = rest := by
    rw [List.append_cons, List.drop_left' (by simp)]
  rw [hbuf, List.length_append, List.length_cons] at hsize
  rw [UserIobuf.shift, memmoveFront, hset, hdrop, List.take_of_length_le (by omega)]

/-! ## What the buffer holds -/

/-- The buffer holds `text` up to `cur`, and then the byte `last`. -/
structure HoldsText (text : List UInt8) (last : UInt8) (u : UserIobuf) : Prop where
  size : u.buf.length = userbufSize + 1
  cur : u.cur = text.length
  front : ∃ tail, u.buf = text ++ last :: tail
  plain : 0 ∉ text

namespace HoldsText

theorem length_le (h : HoldsText text last u) : text.length ≤ userbufSize := by
  obtain ⟨tail, hbuf⟩ := h.front
  have hsize := h.size
  rw [hbuf, List.length_append, List.length_cons] at hsize
  omega

theorem getElem? (h : HoldsText text last u) : u.buf[u.cur]? = some last := by
  obtain ⟨tail, hbuf⟩ := h.front
  rw [hbuf, h.cur, List.getElem?_append_right (Nat.le_refl _), Nat.sub_self, List.getElem?_cons_zero]

theorem take (h : HoldsText text last u) : u.buf.take u.cur = text := by
  obtain ⟨tail, hbuf⟩ := h.front
  rw [hbuf, h.cur, List.take_left]

theorem strchr (h : HoldsText (line ++ newline :: text) last u) (hline : newline ∉ line) :
    strchr newline u.buf = some line.length ∧ cString (u.buf.set line.length 0) = line := by
  obtain ⟨tail, hbuf⟩ := h.front
  have hplain : 0 ∉ line := fun hmem => h.plain (List.mem_append_left _ hmem)
  rw [hbuf, List.append_assoc, List.cons_append]
  exact ⟨strchr_newline hline hplain _, cString_set hplain _⟩

theorem shift (h : HoldsText (line ++ newline :: text) last u) : HoldsText text last (u.shift line.length) := by
  obtain ⟨tail, hbuf⟩ := h.front
  have hsize := h.size
  have hcur := h.cur
  rw [List.append_assoc, List.cons_append] at hbuf
  have hshift := shift_buf hsize hbuf
  rw [List.append_assoc, List.cons_append] at hshift
  rw [List.length_append, List.length_cons] at hcur
  refine ⟨?_, ?_, ⟨_, hshift⟩, fun hmem => h.plain (List.mem_append_right _ (List.mem_cons_of_mem _ hmem))⟩
  · rw [hbuf] at hsize
    rw [hshift]
    simp only [List.length_append, List.length_cons, List.length_drop] at hsize ⊢
    omega
  · have hbound := h.length_le
    rw [List.length_append, List.length_cons] at hbound
    rw [UserIobuf.shift, hcur, show line.length + (text.length + 1) + 2 ^ 32 - (line.length + 1) =
      text.length + 2 ^ 32 by omega, Nat.add_mod_right, Nat.mod_eq_of_lt]
    rw [userbufSize] at hbound
    omega

end HoldsText

/-! ## The loop -/

/-- The result of a loop that has handled some lines before. -/
def handled (lines : List (List UInt8)) (r : Except Fault (UserIobuf × List (List UInt8))) :
    Except Fault (UserIobuf × List (List UInt8)) :=
  r.map fun (u, more) => (u, lines ++ more)

theorem handled_ok (lines more : List (List UInt8)) (u : UserIobuf) :
    handled lines (.ok (u, more)) = .ok (u, lines ++ more) := rfl

theorem processLines_line (h : HoldsText (line ++ newline :: text) last u) (hline : newline ∉ line)
    (fuel : Nat) :
    processLines (fuel + 1) u = handled [line] (processLines fuel (u.shift line.length)) := by
  obtain ⟨hchr, hstring⟩ := h.strchr hline
  rw [processLines, hchr]
  simp only [hstring]
  cases processLines fuel (u.shift line.length) <;> rfl

theorem handled_handled (lines lines' : List (List UInt8))
    (r : Except Fault (UserIobuf × List (List UInt8))) :
    handled lines (handled lines' r) = handled (lines ++ lines') r := by
  cases r with
  | error f => rfl
  | ok r => rw [handled_ok, handled_ok, handled_ok, List.append_assoc]

theorem processLines_holdsText {text : List UInt8} : ∀ {u : UserIobuf}, HoldsText text last u →
    ∃ u', HoldsText (cutLines newline text).2 last u' ∧ ∀ fuel,
      processLines (fuel + (cutLines newline text).1.length) u =
        handled (cutLines newline text).1 (processLines fuel u') := by
  induction text using lines_induction newline with
  | hplain text htext =>
    intro u h
    rw [cutLines_plain htext]
    refine ⟨u, h, fun fuel => ?_⟩
    rw [List.length_nil, Nat.add_zero, handled]
    cases processLines fuel u <;> rfl
  | hline line text hline ih =>
    intro u h
    obtain ⟨u', hu', hloop⟩ := ih h.shift
    rw [cutLines_line hline]
    refine ⟨u', hu', fun fuel => ?_⟩
    rw [List.length_cons, ← Nat.add_assoc, processLines_line h hline, hloop, handled_handled]
    rfl

theorem processLines_done (h : HoldsText text 0 u) (htext : newline ∉ text) (fuel : Nat) :
    processLines (fuel + 1) u = .ok (u, []) := by
  obtain ⟨tail, hbuf⟩ := h.front
  have hchr : strchr newline u.buf = none := by rw [hbuf, strchr_none htext]
  rw [processLines, hchr]

theorem processLines_stale (hlast : last ≠ 0) (h : HoldsText text last u) {more : List (List UInt8)}
    (hloop : processLines fuel u = .ok (u', more)) : more ≠ [] ∨ u'.buf[text.length]? ≠ some 0 := by
  cases fuel with
  | zero => cases hloop
  | succ fuel =>
    rw [processLines] at hloop
    split at hloop
    · obtain ⟨rfl, rfl⟩ := Prod.mk.inj (Except.ok.inj hloop)
      rw [← h.cur, h.getElem?]
      exact Or.inr fun h => hlast (Option.some_inj.mp h)
    · split at hloop
      · cases hloop
      · obtain ⟨rfl, rfl⟩ := Prod.mk.inj (Except.ok.inj hloop)
        exact Or.inl (List.cons_ne_nil _ _)

/-! ## One call -/

/-- The buffer holds an unfinished line. -/
structure HoldsLine (text : List UInt8) (u : UserIobuf) : Prop where
  holds : HoldsText text 0 u
  plain : newline ∉ text

theorem holdsLine_createUserbuf : HoldsLine [] createUserbuf where
  holds := ⟨List.length_replicate, rfl, ⟨_, List.replicate_succ⟩, List.not_mem_nil⟩
  plain := List.not_mem_nil

/-- What is read continues the line; the byte behind it was in the buffer before. -/
theorem HoldsLine.read (h : HoldsLine text u) (hinput : 0 ∉ input)
    (hallowed : input.length ≤ userbufSize - u.cur) :
    ∃ last, u.buf[u.cur + input.length]? = some last ∧ HoldsText (text ++ input) last (u.read input) := by
  have hsize := h.holds.size
  have hlength := h.holds.length_le
  have hcur := h.holds.cur
  have hlt : u.cur + input.length < u.buf.length := by omega
  have hread : (u.read input).buf = text ++ input ++ u.buf[u.cur + input.length] ::
      u.buf.drop (u.cur + input.length + 1) := by
    rw [UserIobuf.read, h.holds.take, List.drop_eq_getElem_cons hlt]
  refine ⟨u.buf[u.cur + input.length], List.getElem?_eq_getElem hlt, ?_, ?_, ⟨_, hread⟩, ?_⟩
  · rw [hread]
    simp only [List.length_append, List.length_cons, List.length_drop]
    omega
  · rw [UserIobuf.read, List.length_append, hcur, Nat.mod_eq_of_lt]
    rw [userbufSize] at hlength hallowed
    omega
  · intro hmem
    exact (List.mem_append.mp hmem).elim h.holds.plain hinput

/-- A call handles the lines that are complete and keeps the rest exactly if the byte behind what it reads is
a NUL. -/
theorem process_iff (h : HoldsLine text u) (hshort : text.length < userbufSize - 1) (hinput : 0 ∉ input)
    (hallowed : input.length ≤ userbufSize - u.cur) :
    (∃ u', processUserInput input u = .ok (u', (cutLines newline (text ++ input)).1) ∧
      HoldsLine (cutLines newline (text ++ input)).2 u') ↔ u.buf[u.cur + input.length]? = some 0 := by
  obtain ⟨last, hlast, hholds⟩ := h.read hinput hallowed
  obtain ⟨u₁, hu₁, hloop⟩ := processLines_holdsText hholds
  have hcur := h.holds.cur
  have hbound := hholds.length_le
  have hlines := length_lines_le newline (text ++ input)
  have hplain : newline ∉ (cutLines newline (text ++ input)).2 := not_mem_unfinished _
  obtain ⟨fuel, hfuel⟩ : ∃ fuel, userbufSize + 2 = fuel + 1 + (cutLines newline (text ++ input)).1.length :=
    ⟨userbufSize + 1 - (cutLines newline (text ++ input)).1.length, by omega⟩
  rw [processUserInput, if_neg (by omega), hfuel, hloop, hlast]
  constructor
  · rintro ⟨u', hok, hu'⟩
    by_contra hne
    rcases hrest : processLines (fuel + 1) u₁ with f | ⟨u₂, more⟩
    · rw [hrest] at hok
      cases hok
    · rw [hrest] at hok
      obtain ⟨rfl, hmore⟩ := Prod.mk.inj (Except.ok.inj hok)
      have hstale := processLines_stale (fun h => hne (h ▸ rfl)) hu₁ hrest
      have hnil : more = [] := by simpa using hmore
      have hnul : u₂.buf[u₂.cur]? = some 0 := hu'.holds.getElem?
      rw [hu'.holds.cur] at hnul
      exact hstale.elim (fun h => h hnil) fun h => h hnul
  · intro heq
    obtain rfl : last = 0 := Option.some_inj.mp heq
    refine ⟨u₁, ?_, hu₁, hplain⟩
    rw [processLines_done hu₁ hplain, handled_ok, List.append_nil]

/-! ## Every call -/

/-- `read` is given the room that is left in the buffer. -/
def Allowed (u : UserIobuf) (input : List UInt8) : Prop := input.length ≤ userbufSize - u.cur

/-- The byte of the buffer behind what is read is a NUL. -/
def NulBehind (u : UserIobuf) (input : List UInt8) : Prop := u.buf[u.cur + input.length]? = some 0

theorem run_holdsLine : ∀ {reads : List (List UInt8)} {text : List UInt8} {u : UserIobuf},
    HoldsLine text u → (∀ input ∈ reads, 0 ∉ input) →
    LinesBelow newline (userbufSize - 1) (text ++ reads.flatten) → userMachine.Holds Allowed reads u →
    userMachine.Holds NulBehind reads u →
    ∃ u', userMachine.run reads u = .ok (u', (cutLines newline (text ++ reads.flatten)).1) ∧
      HoldsLine (cutLines newline (text ++ reads.flatten)).2 u' := by
  intro reads
  induction reads with
  | nil =>
    intro text u h _ _ _ _
    rw [List.flatten_nil, List.append_nil, cutLines_plain h.plain]
    exact ⟨u, rfl, h⟩
  | cons input reads ih =>
    intro text u h hplain hshort hallowed hnul
    obtain ⟨hinput, hplain⟩ := List.forall_mem_cons.mp hplain
    have htext := hshort.unfinished h.plain
    obtain ⟨u₁, hstep, hu₁⟩ := (process_iff h htext hinput hallowed.1).mpr hnul.1
    rw [List.flatten_cons, ← List.append_assoc] at hshort
    obtain ⟨u₂, hrun, hu₂⟩ := ih hu₁ hplain hshort.append_left.1 (hallowed.2 _ _ hstep) (hnul.2 _ _ hstep)
    rw [List.flatten_cons, ← List.append_assoc, cutLines_append (text ++ input)]
    exact ⟨u₂, Machine.run_cons hstep hrun, hu₂⟩

/-- After every call of a run of which no line reaches the limit: the lines handled are those of the input
read so far, in order, the buffer holds the unfinished line and a NUL, and `cur` is what is left of the bytes
read without those of the lines and their newlines. -/
theorem lines_framed {reads : List (List UInt8)} (hplain : ∀ input ∈ reads, 0 ∉ input)
    (hshort : LinesBelow newline (userbufSize - 1) reads.flatten)
    (hallowed : userMachine.Holds Allowed reads createUserbuf)
    (hnul : userMachine.Holds NulBehind reads createUserbuf) :
    ∀ calls later, reads = calls ++ later →
      ∃ u, userMachine.run calls createUserbuf = .ok (u, (cutLines newline calls.flatten).1) ∧
        u.cur = (cutLines newline calls.flatten).2.length ∧
        u.buf.take u.cur = (cutLines newline calls.flatten).2 ∧ u.buf[u.cur]? = some 0 ∧
        (cutLines newline calls.flatten).1.flatten.length + (cutLines newline calls.flatten).1.length +
          u.cur = calls.flatten.length := by
  rintro calls later rfl
  rw [List.flatten_append] at hshort
  have hplain' : ∀ input ∈ calls, 0 ∉ input := fun input hmem => hplain input (List.mem_append_left _ hmem)
  obtain ⟨u, hrun, hu⟩ := run_holdsLine holdsLine_createUserbuf hplain' hshort.append_left.2
    hallowed.append_left hnul.append_left
  refine ⟨u, hrun, hu.holds.cur, hu.holds.take, hu.holds.getElem?, ?_⟩
  rw [hu.holds.cur]
  exact length_cutLines newline _

/-- The second read completes the line that the first one has begun. -/
theorem lines_framed_two : ∃ u, userMachine.run [[99, newline, 100], [101, newline]] createUserbuf =
      .ok (u, [[99], [100, 101]]) ∧ u.cur = 0 ∧ u.buf[u.cur]? = some 0 := by
  have hsecond : (userMachine.step [99, newline, 100] createUserbuf).toOption.all (fun r =>
      decide (2 ≤ userbufSize - r.1.cur ∧ r.1.buf[r.1.cur + 2]? = some 0)) = true := by decide +kernel
  have hchecked : ∀ u l, userMachine.step [99, newline, 100] createUserbuf = .ok (u, l) →
      Allowed u [101, newline] ∧ NulBehind u [101, newline] := by
    intro u l hstep
    rw [hstep] at hsecond
    have hboth : 2 ≤ userbufSize - u.cur ∧ u.buf[u.cur + 2]? = some 0 := of_decide_eq_true hsecond
    exact hboth
  have hallowed : userMachine.Holds Allowed [[99, newline, 100], [101, newline]] createUserbuf :=
    ⟨(by decide : 3 ≤ userbufSize - 0), fun u l hstep => ⟨(hchecked u l hstep).1, fun _ _ _ => trivial⟩⟩
  have hnul : userMachine.Holds NulBehind [[99, newline, 100], [101, newline]] createUserbuf :=
    ⟨List.getElem?_replicate_of_lt (by decide), fun u l hstep => ⟨(hchecked u l hstep).2, fun _ _ _ => trivial⟩⟩
  obtain ⟨u, hrun, hcur, -, hget, -⟩ := lines_framed (by decide) ⟨by decide, by decide⟩ hallowed hnul
    [[99, newline, 100], [101, newline]] [] rfl
  exact ⟨u, hrun, hcur, hget⟩

/-! ## A bogus line -/

section

variable {long : List UInt8} (hlong : long.length = 8186) (hplain : 0 ∉ long) (hline : newline ∉ long)

include hlong hplain hline

/-- A read that fills the buffer, with a short line first: its last two bytes are left behind the NUL. -/
theorem process_full : ∃ u tail,
    processUserInput ([97, 97] ++ newline :: (long ++ [98] ++ [newline])) createUserbuf =
        .ok (u, [[97, 97], long ++ [98]]) ∧
      HoldsText [] 0 u ∧ u.buf = 0 :: 98 :: newline :: 0 :: tail := by
  have hinput : 0 ∉ [97, 97] ++ newline :: (long ++ [98] ++ [newline]) := by simp [hplain, newline]
  have hlength : ([97, 97] ++ newline :: (long ++ [98] ++ [newline])).length = userbufSize := by
    simp [hlong, userbufSize]
  have hlast : newline ∉ long ++ [98] := by simpa [hline] using (by decide : newline ≠ 98)
  -- the buffer is full
  obtain ⟨last, hnul, hread⟩ := holdsLine_createUserbuf.read hinput (Nat.le_of_eq hlength)
  have hzero : createUserbuf.buf[createUserbuf.cur + userbufSize]? = some 0 :=
    List.getElem?_replicate_of_lt (by decide)
  rw [hlength, hzero] at hnul
  obtain rfl : 0 = last := Option.some_inj.mp hnul
  rw [List.nil_append] at hread
  have hbuf : (createUserbuf.read ([97, 97] ++ newline :: (long ++ [98] ++ [newline]))).buf =
      [97, 97] ++ newline :: (long ++ [98] ++ newline :: [0]) := by
    rw [UserIobuf.read, hlength, createUserbuf, List.drop_replicate]
    simp [userbufSize]
  obtain ⟨u₁, hu₁⟩ : ∃ u₁, createUserbuf.read ([97, 97] ++ newline :: (long ++ [98] ++ [newline])) = u₁ :=
    ⟨_, rfl⟩
  rw [hu₁] at hread hbuf
  -- the first line leaves three bytes at the end
  have hshift := shift_buf hread.size hbuf
  have hstale : ([97, 97] ++ 0 :: (long ++ [98] ++ newline :: [0])).drop
      (userbufSize - [97, (97 : UInt8)].length) = 98 :: newline :: [0] := by
    rw [show [97, 97] ++ 0 :: (long ++ [98] ++ newline :: [0]) =
      (97 :: 97 :: 0 :: long) ++ 98 :: newline :: [0] by simp, List.drop_left']
    simp [hlong, userbufSize]
  rw [hstale, List.append_assoc, List.cons_append] at hshift
  have hread' := hread.shift
  have hbuf' := shift_buf hread'.size hshift
  -- the second line brings them behind the NUL
  refine ⟨_, _, ?_, hread'.shift, hbuf'⟩
  rw [processUserInput, if_neg (by decide), hu₁, show userbufSize + 2 = userbufSize - 1 + 1 + 1 + 1 from rfl,
    processLines_line hread (by decide), processLines_line hread' hlast, handled_handled,
    processLines_done hread'.shift List.not_mem_nil, handled_ok]
  rfl

end

theorem process_stale {tail : List UInt8} (h : HoldsText [] 0 u)
    (hbuf : u.buf = 0 :: 98 :: newline :: 0 :: tail) :
    ∃ u', processUserInput [99] u = .ok (u', [[99, 98]]) ∧ u'.cur = 2 ^ 32 - 2 := by
  have hcur : u.cur = 0 := h.cur
  have hsize := h.size
  have hread : (u.read [99]).buf = [99, 98] ++ newline :: (0 :: tail) := by
    rw [UserIobuf.read, hcur, hbuf]
    rfl
  have hread_size : (u.read [99]).buf.length = userbufSize + 1 := by
    rw [hread, ← hsize, hbuf]
    rfl
  have hplain : (0 : UInt8) ∉ [99, 98] := by decide
  have hchr : strchr newline (u.read [99]).buf = some [99, (98 : UInt8)].length := by
    rw [hread, strchr_newline (by decide) hplain]
  have hstring : cString ((u.read [99]).buf.set [99, (98 : UInt8)].length 0) = [99, 98] := by
    rw [hread, cString_set hplain]
  have hshift := shift_buf hread_size hread
  have hdone : strchr newline ((u.read [99]).shift [99, (98 : UInt8)].length).buf = none := by
    rw [hshift]
    rfl
  refine ⟨(u.read [99]).shift [99, (98 : UInt8)].length, ?_, ?_⟩
  · rw [processUserInput, if_neg (by rw [hcur]; decide),
      show userbufSize + 2 = userbufSize + 1 + 1 from rfl, processLines, hchr]
    simp only [processLines, hdone, hstring]
  · have hshifted : ((u.read [99]).shift [99, (98 : UInt8)].length).cur =
        ((u.cur + 1) % 2 ^ 32 + 2 ^ 32 - (2 + 1)) % 2 ^ 32 := rfl
    rw [hshifted, hcur]
    decide

/-- A short line and a long one fill the buffer, and then "c" is read. -/
def staleReads : List (List UInt8) :=
  [[97, 97] ++ newline :: (List.replicate 8186 98 ++ [98] ++ [newline]), [99]]

/-- The bytes "b\n" that were left from the first read make "c" a line, and `cur` underflows. -/
theorem stale_line :
    (∀ input ∈ staleReads, 0 ∉ input) ∧ LinesBelow newline (userbufSize - 1) staleReads.flatten ∧
    userMachine.Holds Allowed staleReads createUserbuf ∧
    cutLines newline staleReads.flatten = ([[97, 97], List.replicate 8186 98 ++ [98]], [99]) ∧
    ∃ u, userMachine.run staleReads createUserbuf =
        .ok (u, [[97, 97], List.replicate 8186 98 ++ [98], [99, 98]]) ∧ u.cur = 2 ^ 32 - 2 := by
  have hlong : (List.replicate 8186 (98 : UInt8)).length = 8186 := List.length_replicate
  have hplain : ∀ c, c ≠ 98 → c ∉ List.replicate 8186 (98 : UInt8) := fun c hc hmem =>
    hc (List.eq_of_mem_replicate hmem)
  unfold staleReads
  generalize List.replicate 8186 (98 : UInt8) = long at hlong hplain
  have hzero := hplain 0 (by decide)
  have hline := hplain newline (by decide)
  have hlast : newline ∉ long ++ [98] := by simpa [hline] using (by decide : newline ≠ 98)
  obtain ⟨u, tail, hfull, hu, hbuf⟩ := process_full hlong hzero hline
  obtain ⟨u', hstale, hu'⟩ := process_stale hu hbuf
  have hcut : cutLines newline [[97, 97] ++ newline :: (long ++ [98] ++ [newline]), [99]].flatten =
      ([[97, 97], long ++ [98]], [99]) := by
    have hflatten : [[97, 97] ++ newline :: (long ++ [98] ++ [newline]), [99]].flatten =
        [97, 97] ++ newline :: (long ++ [98] ++ newline :: [99]) := by simp
    rw [hflatten, cutLines_line (by decide), cutLines_line hlast, cutLines_plain (by decide)]
  refine ⟨?_, ?_, ?_, hcut, u', ?_, hu'⟩
  · simp [hzero, newline]
  · rw [LinesBelow, hcut]
    simp [hlong, userbufSize]
  · refine ⟨?_, fun s l hs => ?_⟩
    · have hroom : userbufSize - createUserbuf.cur = 8191 := rfl
      rw [Allowed, hroom]
      simp [hlong]
    · obtain ⟨rfl, -⟩ := Prod.mk.inj (Except.ok.inj (hs.symm.trans hfull))
      refine ⟨?_, fun _ _ _ => trivial⟩
      rw [Allowed, hu.cur]
      decide
  · rw [Machine.run_cons hfull (Machine.run_cons hstale rfl)]
    rfl

end Bittorrent
