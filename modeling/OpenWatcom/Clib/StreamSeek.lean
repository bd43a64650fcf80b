import OpenWatcom.Clib.DiskIo

/-! # A seek that fails

The streams of the C library: `fgetc`, `fread`, `fputc`, `fwrite`, `ungetc` and `fseek` over the buffer of a stream and
a file of the system. -/

namespace OpenWatcom.StreamSeek

open Clib (toLong)

/-! ### Streams -/

/-- A stream, with the file of its handle.  `ptr` is `_ptr - _FP_BASE`. -/
structure Stream where
  content : List UInt8
  tell : ℕ
  buf : ℕ → UInt8
  ptr : ℕ
  cnt : ℕ
  bufsize : ℕ
  read : Bool
  write : Bool
  append : Bool
  binary : Bool
  ionbf : Bool
  iolbf : Bool
  unget : Bool
  dirty : Bool
  eof : Bool
  sferr : Bool

/-- A stream that was opened. -/
structure Opened (s : Stream) : Prop where
  ptr : s.ptr = 0
  cnt : s.cnt = 0
  unget : s.unget = false
  dirty : s.dirty = false

/-- What the system answers to a call that transfers bytes: how many it transfers at most, or an error. -/
abbrev Answer := Option ℕ

/-- How many bytes `__qread` gets. -/
def qread (s : Stream) (want limit : ℕ) : ℕ := min (min want limit) (s.content.length - s.tell)

/-- `l` with `data` at `pos`; a gap is filled with zeros. -/
def putAt (l : List UInt8) (pos : ℕ) (data : List UInt8) : List UInt8 :=
  if data = [] then l else (l ++ List.replicate (pos - l.length) 0).take pos ++ (data ++ l.drop (pos + data.length))

/-- Where `__qwrite` writes. -/
def writePos (s : Stream) : ℕ := if s.append then s.content.length else s.tell

/-- `__qwrite`, of all the bytes. -/
def qwrite (s : Stream) (data : List UInt8) : Stream :=
  { s with content := putAt s.content (writePos s) data, tell := writePos s + data.length }

/-- The loop of `__flush`, over the answers of `__qwrite` to the bytes from `ptr` on. -/
def flushLoop : List Answer → (ptr amount : ℕ) → Stream → Int × Stream
  | _, _, 0, s => (0, s)
  | [], _, _, s => (-1, { s with sferr := true })
  | none :: _, _, _, s => (-1, { s with sferr := true })
  | some 0 :: _, _, _, s => (-1, { s with sferr := true })
  | some len :: answers, ptr, amount, s =>
      let len := min len amount
      flushLoop answers (ptr + len) (amount - len) (qwrite s (slice s.buf ptr len))

/-- `__flush` of a dirty stream. -/
def flush (answers : List Answer) (s : Stream) : Int × Stream :=
  let s := { s with dirty := false }
  let (ret, s) := if s.write then flushLoop answers 0 s.cnt s else (0, s)
  (ret, { s with ptr := 0, cnt := 0 })

/-- `__fill_buffer`. -/
def fillBuffer (answer : Answer) (s : Stream) : Stream :=
  let s := { s with unget := false, ptr := 0 }
  match answer with
  | none => { s with cnt := 0, sferr := true }
  | some limit =>
      let n := qread s (if s.ionbf then 1 else s.bufsize) limit
      { s with buf := overlay s.buf 0 ((s.content.drop s.tell).take n), cnt := n, tell := s.tell + n,
               eof := s.eof || n == 0 }

/-- A character from the buffer, which is filled when it is empty. -/
def getByte (answer : Answer) (s : Stream) : Option UInt8 × Stream :=
  let s := if s.cnt = 0 then fillBuffer answer s else s
  if s.cnt = 0 then (none, s)
  else (some (s.buf s.ptr), { s with ptr := s.ptr + 1, cnt := s.cnt - 1 })

/-- `fgetc`, with the translation of a text file. -/
def fgetc (answer answer' : Answer) (s : Stream) : Option UInt8 × Stream :=
  if s.read = false then (none, { s with sferr := true })
  else
    let (c, s) := getByte answer s
    if s.binary then (c, s)
    else
      let (c, s) := if c = some 13 then getByte answer' s else (c, s)
      if c = some 26 then (none, { s with eof := true }) else (c, s)

/-- The read of `fread` into the buffer of the caller: how many bytes it gets, and the stream. -/
def readDirect (answer : Answer) (left : ℕ) (s : Stream) : ℕ × Stream :=
  let want := if s.ionbf = false ∧ 512 < left then left / 512 * 512 else left
  let s := { s with ptr := 0, cnt := 0 }
  match answer with
  | none => (0, { s with sferr := true })
  | some limit =>
      let n := qread s want limit
      (n, if n = 0 then { s with eof := true } else { s with tell := s.tell + n })

/-- The loop of `fread` for a binary file. -/
def freadBinary : List Answer → ℕ → Stream → Stream
  | answers, left, s =>
      let bytes := min s.cnt left
      let s := { s with ptr := s.ptr + bytes, cnt := s.cnt - bytes }
      if left - bytes = 0 then s
      else
        match answers with
        | [] => s
        | answer :: answers =>
            if s.bufsize ≤ left - bytes ∨ s.ionbf then
              let p := readDirect answer (left - bytes) s
              if p.1 = 0 then p.2 else freadBinary answers (left - bytes - p.1) p.2
            else
              let s := fillBuffer answer s
              if s.cnt = 0 then s else freadBinary answers (left - bytes) s

/-- The loop of `fread` for a text file; each round gets one or two characters. -/
def freadText : List (Answer × Answer) → ℕ → Stream → Stream
  | [], _, s => s
  | _, 0, s => s
  | (answer, answer') :: answers, left + 1, s =>
      match getByte answer s with
      | (none, s) => s
      | (some c, s) =>
          match if c = 13 then getByte answer' s else (some c, s) with
          | (none, s) => s
          | (some c, s) => if c = 26 then { s with eof := true } else freadText answers left s

/-- `fread` of `n` bytes. -/
def fread (answers : List (Answer × Answer)) (n : ℕ) (s : Stream) : Stream :=
  if s.read = false then { s with sferr := true }
  else if n = 0 then s
  else if s.binary then freadBinary (answers.map Prod.fst) n s
  else freadText answers n s

/-- A byte into the buffer. -/
def putByte (c : UInt8) (s : Stream) : Stream :=
  { s with dirty := true, buf := overlay s.buf s.ptr [c], ptr := s.ptr + 1, cnt := s.cnt + 1 }

/-- `fputc`. -/
def fputc (answers answers' : List Answer) (c : UInt8) (s : Stream) : Int × Stream :=
  if s.write = false then (-1, { s with sferr := true })
  else
    let (ret, s) :=
      if c = 10 ∧ s.binary = false then
        let s := putByte 13 s
        if s.cnt = s.bufsize then flush answers s else (0, s)
      else (0, s)
    if ret ≠ 0 then (-1, s)
    else
      let s := putByte c s
      if s.ionbf ∨ c = 10 ∧ s.iolbf ∨ s.cnt = s.bufsize then
        let (ret, s) := flush answers' s
        (if ret ≠ 0 then -1 else c.toNat, s)
      else (c.toNat, s)

/-- The loop of `fwrite` for a binary file, until the error flag is set. -/
def fwriteBinary : List (List Answer) → List UInt8 → Stream → Stream
  | [], _, s => s
  | answers :: rest, data, s =>
      if data = [] ∨ s.sferr then s
      else if s.cnt = 0 ∧ s.bufsize ≤ data.length then
        let bytes := if data.length / 512 * 512 = 0 then data.length else data.length / 512 * 512
        match answers.head? with
        | some (some limit) =>
            let n := min bytes limit
            let s := qwrite s (data.take n)
            fwriteBinary rest (data.drop n) { s with sferr := s.sferr || n == 0 }
        | _ => { s with sferr := true }
      else
        let bytes := min (s.bufsize - s.cnt) data.length
        let s := { s with buf := overlay s.buf s.ptr (data.take bytes), ptr := s.ptr + bytes, cnt := s.cnt + bytes,
                          dirty := true }
        let s := if s.cnt = s.bufsize ∨ s.ionbf then (flush answers s).2 else s
        fwriteBinary rest (data.drop bytes) s

/-- The loop of `fwrite` for a text file. -/
def fwriteText : List (List Answer × List Answer) → List UInt8 → Stream → Stream
  | [], _, s => s
  | _, [], s => s
  | answers :: rest, c :: data, s =>
      let s := (fputc answers.1 answers.2 c s).2
      if s.eof ∨ s.sferr then s else fwriteText rest data s

/-- `fwrite`; a text file is buffered while it runs. -/
def fwrite (answers : List (List Answer × List Answer)) (answers' : List Answer) (data : List UInt8) (s : Stream) :
    Stream :=
  if s.write = false then { s with sferr := true }
  else if data = [] then s
  else
    let (eof, sferr, ionbf) := (s.eof, s.sferr, s.ionbf)
    let s := { s with eof := false, sferr := false }
    let s :=
      if s.binary then fwriteBinary (answers.map Prod.fst) data s
      else
        let s := fwriteText answers data { s with ionbf := false }
        if ionbf then (flush answers' { s with ionbf := true }).2 else s
    { s with eof := s.eof || eof, sferr := s.sferr || sferr }

/-- `ungetc`. -/
def ungetc (c : UInt8) (s : Stream) : Stream :=
  if s.dirty ∨ s.read = false then s
  else if s.cnt = 0 then
    { s with cnt := 1, ptr := s.bufsize - 1, unget := true, buf := overlay s.buf (s.bufsize - 1) [c], eof := false }
  else if s.ptr ≠ 0 then
    { s with cnt := s.cnt + 1, ptr := s.ptr - 1, unget := s.unget || s.buf (s.ptr - 1) != c,
             buf := overlay s.buf (s.ptr - 1) [c], eof := false }
  else s

/-! ### Seeking -/

/-- The place from which `lseek` counts. -/
def seekStart (s : Stream) (origin : Int) : Option ℕ :=
  match origin with
  | 0 => some 0
  | 1 => some s.tell
  | 2 => some s.content.length
  | _ => none

/-- `lseek`: the place in the file, or none when the system fails, the place would be in front of the file, or a `long`
does not hold it. -/
def lseek (works : Bool) (s : Stream) (offset origin : Int) : Option ℕ :=
  match seekStart s origin with
  | none => none
  | some start => if works ∧ 0 ≤ start + offset ∧ start + offset < 2 ^ 31 then some (start + offset).toNat else none

/-- The test of `__update_buffer`. -/
def InBuffer (s : Stream) (diff : Int) : Prop := diff ≤ s.cnt ∧ -s.ptr ≤ diff

instance (s : Stream) (diff : Int) : Decidable (InBuffer s diff) := inferInstanceAs (Decidable (_ ∧ _))

/-- `__update_buffer`, when the test holds. -/
def updateBuffer (s : Stream) (diff : Int) : Stream :=
  { s with eof := false, ptr := (s.ptr + diff).toNat, cnt := (s.cnt - diff).toNat }

/-- `__reset_buffer`. -/
def resetBuffer (s : Stream) : Stream := { s with eof := false, ptr := 0, cnt := 0 }

/-- What a seek leaves: the value that is returned, whether `lseek` was called and worked, and the stream. -/
structure Seek where
  ret : Int
  lseek : Option Bool
  stream : Stream

/-- A call of `lseek`, with what follows when it works. -/
def seekWith (works : Bool) (offset origin : Int) (s : Stream) (next : Stream → Stream) : Seek :=
  match lseek works s offset origin with
  | none => ⟨-1, some false, s⟩
  | some pos => ⟨0, some true, next { s with tell := pos }⟩

/-- `fseek`; `answers` are those to the calls that `__flush` makes. -/
def fseek (answers : List Answer) (works : Bool) (offset : BitVec 32) (origin : Int) (s : Stream) : Seek :=
  if s.write ∨ s.unget then
    if s.dirty then
      let p := flush answers s
      if p.1 ≠ 0 then ⟨-1, none, p.2⟩
      else seekWith works offset.toInt origin { p.2 with eof := false, unget := false } id
    else
      let offset := if origin = 1 then toLong (offset.toInt - s.cnt) else offset.toInt
      seekWith works offset origin { s with ptr := 0, cnt := 0, eof := false, unget := false } id
  else
    match origin with
    | 1 =>
        if InBuffer s offset.toInt then ⟨0, none, updateBuffer s offset.toInt⟩
        else seekWith works (toLong (offset.toInt - s.cnt)) 1 s resetBuffer
    | 0 =>
        let diff := toLong (offset.toInt - (s.tell - s.cnt))
        if InBuffer s diff then ⟨0, none, updateBuffer s diff⟩
        else seekWith works offset.toInt 0 s resetBuffer
    | 2 => seekWith works offset.toInt 2 (resetBuffer s) id
    | _ => ⟨-1, none, s⟩

/-! ### What a program sees of a stream -/

/-- The buffer holds data that are not in the file yet. -/
def Pending (s : Stream) : Prop := s.dirty = true ∧ s.cnt ≠ 0

instance (s : Stream) : Decidable (Pending s) := inferInstanceAs (Decidable (_ ∧ _))

/-- The data of the file, with those that are still in the buffer. -/
def written (s : Stream) : List UInt8 :=
  if Pending s then putAt s.content (writePos s) (slice s.buf 0 s.cnt) else s.content

/-- The logical position, as `ftell` tells it. -/
def position (s : Stream) : Int := if Pending s then writePos s + s.cnt else s.tell - s.cnt

/-- The bytes that are still to be read. -/
def rest (s : Stream) : List UInt8 :=
  if Pending s then (written s).drop (writePos s + s.cnt) else slice s.buf s.ptr s.cnt ++ s.content.drop s.tell

/-- The position, the bytes to be read and the data are the same. -/
structure SameView (s s' : Stream) : Prop where
  position : position s' = position s
  rest : rest s' = rest s
  written : written s' = written s

/-- The place that a seek asks for is in front of the file, or there is no such origin. -/
def InvalidTarget (s : Stream) (offset : BitVec 32) (origin : Int) : Prop :=
  match origin with
  | 0 => offset.toInt < 0
  | 1 => position s + offset.toInt < 0
  | 2 => (written s).length + offset.toInt < 0
  | _ => True

/-- The streams that reads, writes, `ungetc` and seeks lead to, whatever the system answers. -/
inductive Reachable : Stream → Prop
  | opened {s : Stream} (h : Opened s) : Reachable s
  | fgetc {s : Stream} (h : Reachable s) (answer answer' : Answer) : Reachable (fgetc answer answer' s).2
  | fread {s : Stream} (h : Reachable s) (answers : List (Answer × Answer)) (n : ℕ) : Reachable (fread answers n s)
  | fputc {s : Stream} (h : Reachable s) (answers answers' : List Answer) (c : UInt8) :
      Reachable (fputc answers answers' c s).2
  | fwrite {s : Stream} (h : Reachable s) (answers : List (List Answer × List Answer)) (answers' : List Answer)
      (data : List UInt8) : Reachable (fwrite answers answers' data s)
  | ungetc {s : Stream} (h : Reachable s) (c : UInt8) : Reachable (ungetc c s)
  | fseek {s : Stream} (h : Reachable s) (answers : List Answer) (works : Bool) (offset : BitVec 32) (origin : Int) :
      Reachable (fseek answers works offset origin s).stream

/-! ### The invariant -/

/-- Only a stream for writing is dirty, and the buffer of a stream that is only read, and that no character was pushed
back to, holds bytes in front of the file pointer. -/
structure Inv (s : Stream) : Prop where
  write_of_dirty : s.dirty = true → s.write = true
  buffered : s.write = false → s.unget = false → s.ptr + s.cnt ≤ s.tell

/-- An operation that keeps the invariant, and whether the stream is for writing. -/
structure Keeps (s s' : Stream) : Prop where
  write : s'.write = s.write
  inv : Inv s → Inv s'

namespace Keeps

variable {s s' s'' : Stream}

theorem refl (s : Stream) : Keeps s s := ⟨rfl, id⟩

theorem trans (h : Keeps s s') (h' : Keeps s' s'') : Keeps s s'' := ⟨h'.write.trans h.write, h'.inv ∘ h.inv⟩

/-- A stream for writing has to stay one. -/
theorem of_write (hwrite : s.write = true) (h : s'.write = s.write) : Keeps s s' :=
  ⟨h, fun _ => ⟨fun _ => h.trans hwrite, fun hfalse => absurd (hwrite.symm.trans (h.symm.trans hfalse)) (by decide)⟩⟩

/-- Changes in front of the file pointer. -/
theorem of_read (hwrite : s'.write = s.write) (hdirty : s'.dirty = s.dirty)
    (hbuf : s'.unget = false → (s.unget = false → s.ptr + s.cnt ≤ s.tell) → s'.ptr + s'.cnt ≤ s'.tell) : Keeps s s' :=
  ⟨hwrite, fun h => ⟨fun hd => hwrite.trans (h.write_of_dirty (hdirty.symm.trans hd)),
    fun hw hu => hbuf hu (h.buffered (hwrite.symm.trans hw))⟩⟩

end Keeps

section ops

theorem keeps_fillBuffer (answer : Answer) (s : Stream) : Keeps s (fillBuffer answer s) := by
  unfold fillBuffer
  cases answer with
  | none => exact .of_read rfl rfl fun _ _ => Nat.zero_le _
  | some limit =>
      refine .of_read rfl rfl fun _ _ => ?_
      dsimp only
      omega

theorem keeps_getByte (answer : Answer) (s : Stream) : Keeps s (getByte answer s).2 := by
  have hfill : Keeps s (if s.cnt = 0 then fillBuffer answer s else s) := by
    split
    · exact keeps_fillBuffer answer s
    · exact .refl s
  unfold getByte
  dsimp only
  generalize (if s.cnt = 0 then fillBuffer answer s else s) = s' at hfill
  split
  · exact hfill
  · refine hfill.trans (.of_read rfl rfl fun hu hb => ?_)
    have hsum := hb hu
    dsimp only
    omega

theorem keeps_fgetc (answer answer' : Answer) (s : Stream) : Keeps s (fgetc answer answer' s).2 := by
  unfold fgetc
  split
  · exact .of_read rfl rfl fun hu hb => hb hu
  · have hfirst := keeps_getByte answer s
    generalize getByte answer s = p at hfirst
    obtain ⟨c, s₁⟩ := p
    dsimp only at hfirst ⊢
    split
    · exact hfirst
    · have hsecond : Keeps s₁ (if c = some 13 then getByte answer' s₁ else (c, s₁)).2 := by
        split
        · exact keeps_getByte answer' s₁
        · exact .refl s₁
      generalize (if c = some 13 then getByte answer' s₁ else (c, s₁)) = p at hsecond
      obtain ⟨c', s₂⟩ := p
      dsimp only at hsecond ⊢
      split
      · exact (hfirst.trans hsecond).trans (.of_read rfl rfl fun hu hb => hb hu)
      · exact hfirst.trans hsecond

theorem keeps_readDirect (answer : Answer) (left : ℕ) (s : Stream) : Keeps s (readDirect answer left s).2 := by
  unfold readDirect
  cases answer with
  | none => exact .of_read rfl rfl fun _ _ => Nat.zero_le _
  | some limit =>
      dsimp only
      generalize qread _ _ limit = n
      split <;> exact .of_read rfl rfl fun _ _ => Nat.zero_le _

/-- What is in the buffer is taken. -/
theorem keeps_take (left : ℕ) (s : Stream) :
    Keeps s { s with ptr := s.ptr + min s.cnt left, cnt := s.cnt - min s.cnt left } := by
  refine .of_read rfl rfl fun hu hb => ?_
  have hsum := hb hu
  dsimp only
  omega

theorem keeps_freadBinary (answers : List Answer) (left : ℕ) (s : Stream) :
    Keeps s (freadBinary answers left s) := by
  induction answers generalizing left s with
  | nil =>
      unfold freadBinary
      dsimp only
      have htake := keeps_take left s
      split <;> exact htake
  | cons answer answers ih =>
      unfold freadBinary
      dsimp only
      have htake := keeps_take left s
      split
      · exact htake
      · split
        · have hdirect := htake.trans (keeps_readDirect answer (left - min s.cnt left) _)
          split
          · exact hdirect
          · exact hdirect.trans (ih _ _)
        · have hfill := htake.trans (keeps_fillBuffer answer _)
          split
          · exact hfill
          · exact hfill.trans (ih _ _)

theorem keeps_freadText (answers : List (Answer × Answer)) (left : ℕ) (s : Stream) :
    Keeps s (freadText answers left s) := by
  induction answers generalizing left s with
  | nil => exact .refl s
  | cons answer answers ih =>
      cases left with
      | zero => exact .refl s
      | succ left =>
          have hfirst := keeps_getByte answer.1 s
          unfold freadText
          generalize getByte answer.1 s = p at hfirst
          obtain ⟨_ | c, s₁⟩ := p
          · exact hfirst
          · have hsecond : Keeps s₁ (if c = 13 then getByte answer.2 s₁ else (some c, s₁)).2 := by
              split
              · exact keeps_getByte answer.2 s₁
              · exact .refl s₁
            dsimp only at hfirst ⊢
            generalize (if c = 13 then getByte answer.2 s₁ else (some c, s₁)) = p at hsecond
            obtain ⟨_ | c', s₂⟩ := p
            · exact hfirst.trans hsecond
            · have hboth := hfirst.trans hsecond
              dsimp only at hboth ⊢
              split
              · exact hboth.trans (.of_read rfl rfl fun hu hb => hb hu)
              · exact hboth.trans (ih _ _)

theorem keeps_fread (answers : List (Answer × Answer)) (n : ℕ) (s : Stream) : Keeps s (fread answers n s) := by
  unfold fread
  split
  · exact .of_read rfl rfl fun hu hb => hb hu
  · split
    · exact .refl s
    · split
      · exact keeps_freadBinary _ n s
      · exact keeps_freadText answers n s

theorem flushLoop_write (answers : List Answer) (ptr amount : ℕ) (s : Stream) :
    (flushLoop answers ptr amount s).2.write = s.write := by
  induction answers generalizing ptr amount s with
  | nil => cases amount <;> rfl
  | cons answer answers ih =>
      match amount, answer with
      | 0, _ => rfl
      | amount + 1, none => rfl
      | amount + 1, some 0 => rfl
      | amount + 1, some (len + 1) => exact ih _ _ _

theorem flush_write (answers : List Answer) (s : Stream) : (flush answers s).2.write = s.write := by
  unfold flush
  dsimp only
  split
  · exact flushLoop_write answers 0 s.cnt _
  · rfl

theorem fputc_write (answers answers' : List Answer) (c : UInt8) (s : Stream) :
    (fputc answers answers' c s).2.write = s.write := by
  unfold fputc
  split
  · rfl
  · have hfirst : (if c = 10 ∧ s.binary = false then
        if (putByte 13 s).cnt = (putByte 13 s).bufsize then flush answers (putByte 13 s) else (0, putByte 13 s)
        else ((0 : Int), s)).2.write = s.write := by
      split
      · split
        · exact flush_write answers _
        · rfl
      · rfl
    dsimp only
    generalize (if c = 10 ∧ s.binary = false then
      if (putByte 13 s).cnt = (putByte 13 s).bufsize then flush answers (putByte 13 s) else (0, putByte 13 s)
      else ((0 : Int), s)) = p at hfirst
    split
    · exact hfirst
    · split
      · exact (flush_write answers' _).trans hfirst
      · exact hfirst

theorem fwriteBinary_write (answers : List (List Answer)) (data : List UInt8) (s : Stream) :
    (fwriteBinary answers data s).write = s.write := by
  induction answers generalizing data s with
  | nil => rfl
  | cons answer answers ih =>
      unfold fwriteBinary
      dsimp only
      split
      · rfl
      · split
        · split
          · exact ih _ _
          · rfl
        · refine (ih _ _).trans ?_
          split
          · exact flush_write answer _
          · rfl

theorem fwriteText_write (answers : List (List Answer × List Answer)) (data : List UInt8) (s : Stream) :
    (fwriteText answers data s).write = s.write := by
  induction answers generalizing data s with
  | nil => rfl
  | cons answer answers ih =>
      cases data with
      | nil => rfl
      | cons c data =>
          have hput := fputc_write answer.1 answer.2 c s
          unfold fwriteText
          dsimp only
          split
          · exact hput
          · exact (ih _ _).trans hput

theorem keeps_fputc (answers answers' : List Answer) (c : UInt8) (s : Stream) :
    Keeps s (fputc answers answers' c s).2 := by
  cases hwrite : s.write with
  | true => exact .of_write hwrite (fputc_write answers answers' c s)
  | false =>
      unfold fputc
      rw [if_pos hwrite]
      exact .of_read rfl rfl fun hu hb => hb hu

theorem fwrite_write (answers : List (List Answer × List Answer)) (answers' : List Answer) (data : List UInt8)
    (s : Stream) : (fwrite answers answers' data s).write = s.write := by
  unfold fwrite
  split
  · rfl
  · split
    · rfl
    · dsimp only
      split
      · exact fwriteBinary_write _ _ _
      · split
        · exact (flush_write _ _).trans (fwriteText_write _ _ _)
        · exact fwriteText_write _ _ _

theorem keeps_fwrite (answers : List (List Answer × List Answer)) (answers' : List Answer) (data : List UInt8)
    (s : Stream) : Keeps s (fwrite answers answers' data s) := by
  cases hwrite : s.write with
  | true => exact .of_write hwrite (fwrite_write answers answers' data s)
  | false =>
      unfold fwrite
      rw [if_pos hwrite]
      exact .of_read rfl rfl fun hu hb => hb hu

theorem keeps_ungetc (c : UInt8) (s : Stream) : Keeps s (ungetc c s) := by
  unfold ungetc
  split
  · exact .refl s
  · split
    · exact .of_read rfl rfl fun hu _ => absurd hu Bool.noConfusion
    · split
      case isTrue hptr =>
        refine .of_read rfl rfl fun hu hb => ?_
        have hsum := hb (Bool.or_eq_false_iff.mp hu).1
        dsimp only
        omega
      case isFalse => exact .refl s

theorem keeps_updateBuffer {s : Stream} {diff : Int} (h : InBuffer s diff) : Keeps s (updateBuffer s diff) := by
  obtain ⟨hhigh, hlow⟩ := h
  refine .of_read rfl rfl fun hu hb => ?_
  have hsum := hb hu
  unfold updateBuffer
  dsimp only
  omega

theorem keeps_resetBuffer (s : Stream) : Keeps s (resetBuffer s) :=
  .of_read rfl rfl fun _ _ => Nat.zero_le _

/-- A seek keeps what is kept on either way out. -/
theorem keeps_seekWith (works : Bool) (offset origin : Int) {s₀ s : Stream} {next : Stream → Stream} (h : Keeps s₀ s)
    (hnext : ∀ pos, Keeps s₀ (next { s with tell := pos })) :
    Keeps s₀ (seekWith works offset origin s next).stream := by
  unfold seekWith
  split
  · exact h
  · exact hnext _

theorem keeps_fseek (answers : List Answer) (works : Bool) (offset : BitVec 32) (origin : Int) {s : Stream}
    (hdirty : s.dirty = true → s.write = true) : Keeps s (fseek answers works offset origin s).stream := by
  unfold fseek
  split
  · split
    case isTrue hd =>
      have hflush := flush_write answers s
      dsimp only
      split
      · exact .of_write (hdirty hd) hflush
      · exact keeps_seekWith _ _ _ (.of_write (hdirty hd) hflush) fun _ => .of_write (hdirty hd) hflush
    case isFalse =>
      exact keeps_seekWith _ _ _ (.of_read rfl rfl fun _ _ => Nat.zero_le _)
        fun _ => .of_read rfl rfl fun _ _ => Nat.zero_le _
  · split
    · split
      case isTrue hin => exact keeps_updateBuffer hin
      case isFalse =>
        exact keeps_seekWith _ _ _ (.refl s) fun _ => .of_read rfl rfl fun _ _ => Nat.zero_le _
    · dsimp only
      split
      case isTrue hin => exact keeps_updateBuffer hin
      case isFalse =>
        exact keeps_seekWith _ _ _ (.refl s) fun _ => .of_read rfl rfl fun _ _ => Nat.zero_le _
    · exact keeps_seekWith _ _ _ (keeps_resetBuffer s) fun _ => .of_read rfl rfl fun _ _ => Nat.zero_le _
    · exact .refl s

end ops

theorem Reachable.inv {s : Stream} (h : Reachable s) : Inv s := by
  induction h with
  | opened h =>
      refine ⟨fun hd => absurd (hd.symm.trans h.dirty) (by decide), fun _ _ => ?_⟩
      rw [h.ptr, h.cnt]
      exact Nat.zero_le _
  | fgetc h answer answer' ih => exact (keeps_fgetc answer answer' _).inv ih
  | fread h answers n ih => exact (keeps_fread answers n _).inv ih
  | fputc h answers answers' c ih => exact (keeps_fputc answers answers' c _).inv ih
  | fwrite h answers answers' data ih => exact (keeps_fwrite answers answers' data _).inv ih
  | ungetc h c ih => exact (keeps_ungetc c _).inv ih
  | fseek h answers works offset origin ih =>
      exact (keeps_fseek answers works offset origin ih.write_of_dirty).inv ih

/-! ### Flushing -/

section flush

@[simp] theorem putAt_nil (l : List UInt8) (pos : ℕ) : putAt l pos [] = l := if_pos rfl

theorem putAt_putAt (l : List UInt8) (pos : ℕ) {a : List UInt8} (ha : a ≠ []) (b : List UInt8) :
    putAt (putAt l pos a) (pos + a.length) b = putAt l pos (a ++ b) := by
  by_cases hb : b = []
  · rw [hb, putAt_nil, List.append_nil]
  have hpre : ((l ++ List.replicate (pos - l.length) 0).take pos).length = pos := by
    rw [List.length_take, List.length_append, List.length_replicate]
    omega
  have hab : a ++ b ≠ [] := fun h => ha (List.append_eq_nil_iff.mp h).1
  unfold putAt
  rw [if_neg hb, if_neg ha, if_neg hab]
  generalize (l ++ List.replicate (pos - l.length) 0).take pos = pre at hpre
  have hlong : pos + a.length - (pre ++ (a ++ l.drop (pos + a.length))).length = 0 := by
    rw [List.length_append, List.length_append, hpre]
    omega
  have htake : (pre ++ (a ++ l.drop (pos + a.length))).take (pos + a.length) = pre ++ a := by
    rw [← List.append_assoc]
    exact List.take_left' (by rw [List.length_append, hpre])
  have hdrop : (pre ++ (a ++ l.drop (pos + a.length))).drop (pos + a.length + b.length) =
      l.drop (pos + (a ++ b).length) := by
    have hlen : (pre ++ a).length = pos + a.length := by rw [List.length_append, hpre]
    rw [← List.append_assoc, ← List.drop_drop, List.drop_left' hlen, List.drop_drop, List.length_append,
      Nat.add_assoc]
  rw [hlong, List.replicate_zero, List.append_nil, htake, hdrop]
  simp only [List.append_assoc]

theorem writePos_qwrite (s : Stream) {data : List UInt8} (hdata : data ≠ []) :
    writePos (qwrite s data) = writePos s + data.length := by
  unfold writePos qwrite
  dsimp only
  split
  case isTrue happend =>
    unfold writePos putAt
    rw [if_pos happend, if_neg hdata, Nat.sub_self, List.replicate_zero, List.append_nil, List.take_length,
      List.drop_eq_nil_of_le (by omega), List.append_nil, List.length_append]
  case isFalse happend =>
    unfold writePos
    rw [if_neg happend]

/-- A flush that succeeds puts the buffer into the file. -/
theorem flushLoop_spec {answers : List Answer} {ptr amount : ℕ} {s : Stream}
    (h : (flushLoop answers ptr amount s).1 = 0) (htell : amount = 0 → writePos s = s.tell) :
    (flushLoop answers ptr amount s).2.content = putAt s.content (writePos s) (slice s.buf ptr amount) ∧
      (flushLoop answers ptr amount s).2.tell = writePos s + amount ∧
      (flushLoop answers ptr amount s).2.dirty = s.dirty := by
  induction answers generalizing ptr amount s with
  | nil =>
      cases amount with
      | zero => exact ⟨(putAt_nil _ _).symm, (htell rfl).symm, rfl⟩
      | succ amount => exact absurd h (by decide : (-1 : Int) ≠ 0)
  | cons answer answers ih =>
      match amount, answer with
      | 0, _ => exact ⟨(putAt_nil _ _).symm, (htell rfl).symm, rfl⟩
      | amount + 1, none => exact absurd h (by decide : (-1 : Int) ≠ 0)
      | amount + 1, some 0 => exact absurd h (by decide : (-1 : Int) ≠ 0)
      | amount + 1, some (len + 1) =>
          have hne : slice s.buf ptr (min (len + 1) (amount + 1)) ≠ [] := by
            intro hnil
            have hlen := congrArg List.length hnil
            rw [slice_length, List.length_nil] at hlen
            omega
          have hpos := writePos_qwrite s hne
          rw [slice_length] at hpos
          obtain ⟨hcontent, htell', hdirty⟩ := ih (s := qwrite s (slice s.buf ptr (min (len + 1) (amount + 1)))) h
            (fun _ => hpos.trans (by rw [qwrite, slice_length]))
          have hsum : min (len + 1) (amount + 1) + (amount + 1 - min (len + 1) (amount + 1)) = amount + 1 := by omega
          refine ⟨hcontent.trans ?_, htell'.trans ?_, hdirty⟩
          · have hslice := slice_add s.buf ptr (min (len + 1) (amount + 1)) (amount + 1 - min (len + 1) (amount + 1))
            rw [hsum] at hslice
            rw [hslice, ← putAt_putAt _ _ hne, hpos, slice_length]
            rfl
          · rw [hpos]
            omega

/-- The stream behind a flush that succeeds. -/
structure Flushed (s s' : Stream) : Prop where
  content : s'.content = written s
  tell : (s'.tell : Int) = position s
  cnt : s'.cnt = 0
  dirty : s'.dirty = false

theorem flush_spec {answers : List Answer} {s : Stream} (hdirty : s.dirty = true) (hwrite : s.write = true)
    (h : (flush answers s).1 = 0) : Flushed s (flush answers s).2 := by
  have hwp : writePos { s with dirty := false } = writePos s := rfl
  unfold flush at h ⊢
  dsimp only at h ⊢
  rw [if_pos hwrite] at h ⊢
  by_cases hcnt : s.cnt = 0
  · have hnot : ¬ Pending s := fun hp => hp.2 hcnt
    have hloop : flushLoop answers 0 s.cnt { s with dirty := false } = (0, { s with dirty := false }) := by
      rw [hcnt]
      unfold flushLoop
      cases answers <;> rfl
    rw [hloop]
    refine ⟨(if_neg hnot).symm, ?_, rfl, rfl⟩
    unfold position
    rw [if_neg hnot, hcnt]
    simp
  · have hp : Pending s := ⟨hdirty, hcnt⟩
    obtain ⟨hcontent, htell, hclean⟩ := flushLoop_spec h (fun h0 => absurd h0 hcnt)
    refine ⟨?_, ?_, rfl, hclean⟩
    · unfold written
      rw [if_pos hp]
      exact hcontent
    · unfold position
      rw [if_pos hp]
      dsimp only
      rw [htell, hwp]
      push_cast
      rfl

end flush

/-! ### Failing -/

section fail

/-- A stream with nothing in its buffer, at the place and with the data that the program saw before. -/
theorem sameView_of_flushed {s s' : Stream} (h : Flushed s s') (hpending : Pending s) : SameView s s' := by
  have hnot : ¬ Pending s' := fun hp => hp.2 h.cnt
  have htell := h.tell
  unfold position at htell
  rw [if_pos hpending] at htell
  refine ⟨?_, ?_, ?_⟩
  · unfold position
    rw [if_neg hnot, if_pos hpending, h.cnt]
    omega
  · have hpos : s'.tell = writePos s + s.cnt := by exact_mod_cast htell
    unfold rest
    rw [if_neg hnot, if_pos hpending, h.cnt, h.content, hpos, slice_zero, List.nil_append]
  · unfold written
    rw [if_neg hnot]
    exact h.content

/-- A stream whose buffer was dropped. -/
theorem sameView_iff_of_dropped {s : Stream} (s' : Stream) (hnot : ¬ Pending s) (hcontent : s'.content = s.content)
    (htell : s'.tell = s.tell) (hcnt : s'.cnt = 0) : SameView s s' ↔ s.cnt = 0 := by
  have hnot' : ¬ Pending s' := fun hp => hp.2 hcnt
  constructor
  · intro h
    have hpos := h.position
    unfold position at hpos
    rw [if_neg hnot, if_neg hnot', htell, hcnt] at hpos
    omega
  · intro h0
    refine ⟨?_, ?_, ?_⟩
    · unfold position
      rw [if_neg hnot, if_neg hnot', htell, hcnt, h0]
    · unfold rest
      rw [if_neg hnot, if_neg hnot', htell, hcnt, h0, hcontent, slice_zero, slice_zero]
    · unfold written
      rw [if_neg hnot, if_neg hnot', hcontent]

theorem SameView.refl (s : Stream) : SameView s s := ⟨rfl, rfl, rfl⟩

theorem seekWith_none {works : Bool} {offset origin : Int} {s : Stream} {next : Stream → Stream}
    (h : lseek works s offset origin = none) : seekWith works offset origin s next = ⟨-1, some false, s⟩ := by
  unfold seekWith
  rw [h]

theorem seekWith_cases (works : Bool) (offset origin : Int) (s : Stream) (next : Stream → Stream) :
    lseek works s offset origin = none ∧ seekWith works offset origin s next = ⟨-1, some false, s⟩ ∨
      (lseek works s offset origin).isSome ∧ (seekWith works offset origin s next).ret = 0 ∧
        (seekWith works offset origin s next).lseek = some true := by
  unfold seekWith
  cases lseek works s offset origin with
  | none => exact .inl ⟨rfl, rfl⟩
  | some pos => exact .inr ⟨rfl, rfl, rfl⟩

theorem lseek_eq_none {works : Bool} {s : Stream} {offset origin : Int} {start : ℕ}
    (h : seekStart s origin = some start) (hout : start + offset < 0 ∨ 2 ^ 31 ≤ start + offset) :
    lseek works s offset origin = none := by
  unfold lseek
  rw [h]
  exact if_neg (by omega)

theorem lseek_other {works : Bool} {s : Stream} {offset origin : Int} (h0 : origin ≠ 0) (h1 : origin ≠ 1)
    (h2 : origin ≠ 2) : lseek works s offset origin = none := by
  have hnone : seekStart s origin = none := by
    unfold seekStart
    split
    · exact absurd rfl h0
    · exact absurd rfl h1
    · exact absurd rfl h2
    · rfl
  unfold lseek
  rw [hnone]

theorem toLong_toInt (offset : BitVec 32) : toLong offset.toInt = offset.toInt := by
  have hlow := offset.le_toInt
  have hhigh := offset.toInt_lt
  unfold toLong
  omega

/-- A seek to an invalid place fails in `lseek`, when the file of the stream is up to date. -/
theorem lseek_invalid {works : Bool} {s s' : Stream} {offset : BitVec 32} {origin : Int}
    (hinvalid : InvalidTarget s offset origin) (htell : (s'.tell : Int) = position s)
    (hcontent : s'.content = written s) : lseek works s' offset.toInt origin = none := by
  by_cases h0 : origin = 0
  · subst h0
    exact lseek_eq_none rfl (.inl (by rw [Nat.cast_zero, zero_add]; exact hinvalid))
  by_cases h1 : origin = 1
  · subst h1
    exact lseek_eq_none rfl (.inl (by rw [htell]; exact hinvalid))
  by_cases h2 : origin = 2
  · subst h2
    exact lseek_eq_none rfl (.inl (by rw [hcontent]; exact hinvalid))
  exact lseek_other h0 h1 h2

/-- A call whose `lseek` fails, or that asks for an invalid place. -/
def Fails (answers : List Answer) (works : Bool) (offset : BitVec 32) (origin : Int) (s : Stream) : Prop :=
  (fseek answers works offset origin s).lseek = some false ∨ InvalidTarget s offset origin

/-- The condition under which a call that fails leaves the stream as it was: there are data to be flushed, nothing is
buffered, or the stream is only read, no character was pushed back, the seek does not count from the end, and the
distance to a place in front of the file does not wrap around to one in the buffer. -/
def Kept (s : Stream) (offset : BitVec 32) (origin : Int) : Prop :=
  s.dirty = true ∨
    if s.write ∨ s.unget then s.cnt = 0
    else (origin = 2 → s.cnt = 0) ∧
      ¬ (origin = 0 ∧ offset.toInt < 0 ∧ InBuffer s (toLong (offset.toInt - (s.tell - s.cnt))))

instance (s : Stream) (offset : BitVec 32) (origin : Int) : Decidable (Kept s offset origin) :=
  inferInstanceAs (Decidable (_ ∨ ite _ _ _))

variable {s : Stream} {answers : List Answer} {works : Bool} {offset : BitVec 32} {origin : Int}

theorem failed_dirty (hinv : Inv s) (hdirty : s.dirty = true) (hflush : (flush answers s).1 = 0)
    (hfails : Fails answers works offset origin s) :
    (fseek answers works offset origin s).ret ≠ 0 ∧ SameView s (fseek answers works offset origin s).stream := by
  have hwrite := hinv.write_of_dirty hdirty
  have hspec := flush_spec hdirty hwrite hflush
  have hseek : fseek answers works offset origin s =
      seekWith works offset.toInt origin { (flush answers s).2 with eof := false, unget := false } id := by
    unfold fseek
    rw [if_pos (.inl hwrite), if_pos hdirty]
    dsimp only
    rw [if_neg (not_not.mpr hflush)]
  have hnone : lseek works { (flush answers s).2 with eof := false, unget := false } offset.toInt origin = none := by
    obtain hfalse | hinvalid := hfails
    · obtain ⟨hnone, -⟩ | ⟨-, -, htrue⟩ := seekWith_cases works offset.toInt origin
        { (flush answers s).2 with eof := false, unget := false } id
      · exact hnone
      · rw [hseek, htrue] at hfalse
        cases hfalse
    · exact lseek_invalid hinvalid hspec.tell hspec.content
  rw [hseek, seekWith_none hnone]
  refine ⟨(by decide : (-1 : Int) ≠ 0), ?_⟩
  have hspec' : Flushed s { (flush answers s).2 with eof := false, unget := false } :=
    ⟨hspec.content, hspec.tell, hspec.cnt, hspec.dirty⟩
  by_cases hpending : Pending s
  · exact sameView_of_flushed hspec' hpending
  · have hcnt : s.cnt = 0 := by_contra fun h => hpending ⟨hdirty, h⟩
    have htell := hspec'.tell
    have hcontent := hspec'.content
    unfold position at htell
    unfold written at hcontent
    rw [if_neg hpending] at htell hcontent
    exact (sameView_iff_of_dropped _ hpending hcontent (by omega) hspec'.cnt).mpr hcnt

theorem not_pending (hdirty : s.dirty = false) : ¬ Pending s := fun h => absurd (hdirty.symm.trans h.1) (by decide)

/-- A stream for writing, or one with a character pushed back, that has nothing to flush. -/
theorem failed_dropped (hdirty : s.dirty = false) (hmode : s.write = true ∨ s.unget = true)
    (hfails : Fails answers works offset origin s) :
    ((fseek answers works offset origin s).ret ≠ 0 ∧
      SameView s (fseek answers works offset origin s).stream) ↔ s.cnt = 0 := by
  have hnot := not_pending hdirty
  have hseek : fseek answers works offset origin s =
      seekWith works (if origin = 1 then toLong (offset.toInt - s.cnt) else offset.toInt) origin
        { s with ptr := 0, cnt := 0, eof := false, unget := false } id := by
    unfold fseek
    rw [if_pos hmode, if_neg (ne_true_of_eq_false hdirty)]
  obtain ⟨hnone, hresult⟩ | ⟨hsome, hret, htrue⟩ := seekWith_cases works
    (if origin = 1 then toLong (offset.toInt - s.cnt) else offset.toInt) origin
    { s with ptr := 0, cnt := 0, eof := false, unget := false } id
  · rw [hseek, hresult]
    have hdropped :=
      sameView_iff_of_dropped { s with ptr := 0, cnt := 0, eof := false, unget := false } hnot rfl rfl rfl
    exact ⟨fun h => hdropped.mp h.2, fun h => ⟨(by decide : (-1 : Int) ≠ 0), hdropped.mpr h⟩⟩
  · -- `lseek` works, so that the place was invalid and the buffer was not empty
    constructor
    · intro h
      exact absurd (hseek ▸ hret) h.1
    · intro h0
      exfalso
      obtain hfalse | hinvalid := hfails
      · rw [hseek, htrue] at hfalse
        cases hfalse
      · have hoffset : (if origin = 1 then toLong (offset.toInt - s.cnt) else offset.toInt) = offset.toInt := by
          rw [h0, Nat.cast_zero, sub_zero, toLong_toInt, ite_self]
        have hposition : position s = s.tell := by
          unfold position
          rw [if_neg hnot, h0, Nat.cast_zero, sub_zero]
        have hnone : lseek works { s with ptr := 0, cnt := 0, eof := false, unget := false } offset.toInt origin =
            none := lseek_invalid hinvalid hposition.symm (if_neg hnot).symm
        rw [hoffset, hnone] at hsome
        cases hsome

/-- The outcome when `lseek` is called from the stream itself, for a place that it refuses. -/
theorem kept_of_seekWith (h : lseek works s offset.toInt origin = none ∨
      (seekWith works offset.toInt origin s resetBuffer).lseek = some false) :
    (seekWith works offset.toInt origin s resetBuffer).ret ≠ 0 ∧
      SameView s (seekWith works offset.toInt origin s resetBuffer).stream := by
  obtain ⟨-, hresult⟩ | ⟨hsome, -, htrue⟩ := seekWith_cases works offset.toInt origin s resetBuffer
  · rw [hresult]
    exact ⟨(by decide : (-1 : Int) ≠ 0), .refl s⟩
  · obtain hnone | hfalse := h
    · rw [hnone] at hsome
      cases hsome
    · rw [htrue] at hfalse
      cases hfalse

section readOnly

variable (hinv : Inv s) (hdirty : s.dirty = false) (hmode : ¬ (s.write = true ∨ s.unget = true))

include hinv hmode in
theorem buffered_readOnly : s.ptr + s.cnt ≤ s.tell :=
  hinv.buffered (eq_false_of_ne_true fun h => hmode (.inl h)) (eq_false_of_ne_true fun h => hmode (.inr h))

include hinv hdirty hmode in
/-- From the current position, a buffer holds no place in front of the file. -/
theorem failed_current (hfails : Fails answers works offset 1 s) :
    (fseek answers works offset 1 s).ret ≠ 0 ∧ SameView s (fseek answers works offset 1 s).stream := by
  have hbuf := buffered_readOnly hinv hmode
  have hnot := not_pending hdirty
  have hlow := offset.le_toInt
  have hposition : position s = s.tell - s.cnt := if_neg hnot
  have hseek : fseek answers works offset 1 s =
      if InBuffer s offset.toInt then ⟨0, none, updateBuffer s offset.toInt⟩
      else seekWith works (toLong (offset.toInt - s.cnt)) 1 s resetBuffer := by
    unfold fseek
    rw [if_neg hmode]
    rfl
  by_cases hin : InBuffer s offset.toInt
  · exfalso
    unfold Fails at hfails
    rw [hseek, if_pos hin] at hfails
    obtain hfalse | hinvalid := hfails
    · cases hfalse
    · have hneg : position s + offset.toInt < 0 := hinvalid
      have hlow := hin.2
      omega
  · rw [hseek, if_neg hin]
    obtain ⟨-, hresult⟩ | ⟨hsome, -, htrue⟩ :=
      seekWith_cases works (toLong (offset.toInt - s.cnt)) 1 s resetBuffer
    · rw [hresult]
      exact ⟨(by decide : (-1 : Int) ≠ 0), .refl s⟩
    · exfalso
      unfold Fails at hfails
      rw [hseek, if_neg hin, htrue] at hfails
      obtain hfalse | hinvalid := hfails
      · cases hfalse
      · -- the sum is the invalid place again, or beyond what a `long` holds
        have hneg : position s + offset.toInt < 0 := hinvalid
        have hnone : lseek works s (toLong (offset.toInt - s.cnt)) 1 = none := by
          refine lseek_eq_none rfl ?_
          unfold toLong
          omega
        rw [hnone] at hsome
        cases hsome

include hmode in
/-- From the start of the file. -/
theorem failed_start (hfails : Fails answers works offset 0 s) :
    ((fseek answers works offset 0 s).ret ≠ 0 ∧ SameView s (fseek answers works offset 0 s).stream) ↔
      ¬ (offset.toInt < 0 ∧ InBuffer s (toLong (offset.toInt - (s.tell - s.cnt)))) := by
  have hseek : fseek answers works offset 0 s =
      if InBuffer s (toLong (offset.toInt - (s.tell - s.cnt))) then
        ⟨0, none, updateBuffer s (toLong (offset.toInt - (s.tell - s.cnt)))⟩
      else seekWith works offset.toInt 0 s resetBuffer := by
    unfold fseek
    rw [if_neg hmode]
    rfl
  unfold Fails at hfails
  by_cases hin : InBuffer s (toLong (offset.toInt - (s.tell - s.cnt)))
  · rw [hseek, if_pos hin] at hfails ⊢
    obtain hfalse | hinvalid := hfails
    · cases hfalse
    · have hneg : offset.toInt < 0 := hinvalid
      exact ⟨fun h => absurd rfl h.1, fun h => absurd ⟨hneg, hin⟩ h⟩
  · rw [hseek, if_neg hin] at hfails ⊢
    refine ⟨fun _ h => hin h.2, fun _ => kept_of_seekWith ?_⟩
    obtain hfalse | hinvalid := hfails
    · exact .inr hfalse
    · have hneg : offset.toInt < 0 := hinvalid
      exact .inl (lseek_eq_none rfl (.inl (by rw [Nat.cast_zero, zero_add]; exact hneg)))

include hdirty hmode in
/-- From the end of the file, the buffer is dropped before `lseek` is called. -/
theorem failed_end (hfails : Fails answers works offset 2 s) :
    ((fseek answers works offset 2 s).ret ≠ 0 ∧ SameView s (fseek answers works offset 2 s).stream) ↔ s.cnt = 0 := by
  have hnot := not_pending hdirty
  have hseek : fseek answers works offset 2 s = seekWith works offset.toInt 2 (resetBuffer s) id := by
    unfold fseek
    rw [if_neg hmode]
    rfl
  have hdropped := sameView_iff_of_dropped (resetBuffer s) hnot rfl rfl rfl
  unfold Fails at hfails
  obtain ⟨-, hresult⟩ | ⟨hsome, -, htrue⟩ := seekWith_cases works offset.toInt 2 (resetBuffer s) id
  · rw [hseek, hresult]
    exact ⟨fun h => hdropped.mp h.2, fun h => ⟨(by decide : (-1 : Int) ≠ 0), hdropped.mpr h⟩⟩
  · exfalso
    rw [hseek, htrue] at hfails
    obtain hfalse | hinvalid := hfails
    · cases hfalse
    · have hneg : (written s).length + offset.toInt < 0 := hinvalid
      unfold written at hneg
      rw [if_neg hnot] at hneg
      have hnone : lseek works (resetBuffer s) offset.toInt 2 = none := lseek_eq_none rfl (.inl hneg)
      rw [hnone] at hsome
      cases hsome

include hmode in
/-- From no known origin, nothing is done. -/
theorem failed_other (h0 : origin ≠ 0) (h1 : origin ≠ 1) (h2 : origin ≠ 2) :
    (fseek answers works offset origin s).ret ≠ 0 ∧ SameView s (fseek answers works offset origin s).stream := by
  have hseek : fseek answers works offset origin s = ⟨-1, none, s⟩ := by
    unfold fseek
    rw [if_neg hmode]
    split
    · exact absurd rfl h1
    · exact absurd rfl h0
    · exact absurd rfl h2
    · rfl
  rw [hseek]
  exact ⟨(by decide : (-1 : Int) ≠ 0), .refl s⟩

end readOnly

end fail

/-- A seek that fails, on any stream and with flushes that succeed, returns a value that is not zero and leaves the
position, the bytes to be read and the data as they were exactly when `Kept` holds. -/
theorem fseek_failed_iff {s : Stream} (h : Reachable s) (answers : List Answer) (works : Bool) (offset : BitVec 32)
    (origin : Int) (hflush : s.dirty = true → (flush answers s).1 = 0)
    (hfails : Fails answers works offset origin s) :
    ((fseek answers works offset origin s).ret ≠ 0 ∧ SameView s (fseek answers works offset origin s).stream) ↔
      Kept s offset origin := by
  have hinv := h.inv
  unfold Kept
  cases hdirty : s.dirty with
  | true => exact ⟨fun _ => .inl rfl, fun _ => failed_dirty hinv hdirty (hflush hdirty) hfails⟩
  | false =>
      rw [or_iff_right Bool.false_ne_true]
      by_cases hmode : s.write = true ∨ s.unget = true
      · rw [if_pos hmode]
        exact failed_dropped hdirty hmode hfails
      · rw [if_neg hmode]
        by_cases h0 : origin = 0
        · subst h0
          rw [failed_start hmode hfails]
          exact ⟨fun hn => ⟨fun h2 => absurd h2 (by decide), fun hp => hn hp.2⟩, fun hn hp => hn.2 ⟨rfl, hp⟩⟩
        by_cases h1 : origin = 1
        · subst h1
          exact ⟨fun _ => ⟨fun h2 => absurd h2 (by decide), fun hp => h0 hp.1⟩,
            fun _ => failed_current hinv hdirty hmode hfails⟩
        by_cases h2 : origin = 2
        · subst h2
          rw [failed_end hdirty hmode hfails]
          exact ⟨fun hcnt => ⟨fun _ => hcnt, fun hp => h0 hp.1⟩, fun hk => hk.1 rfl⟩
        · exact ⟨fun _ => ⟨fun h => absurd h h2, fun hp => h0 hp.1⟩, fun _ => failed_other hmode h0 h1 h2⟩

/-- A file of three bytes, opened for reading. -/
def threeBytes : Stream :=
  { content := [1, 2, 3], tell := 0, buf := fun _ => 0, ptr := 0, cnt := 0, bufsize := 512
    read := true, write := false, append := false, binary := true, ionbf := false, iolbf := false
    unget := false, dirty := false, eof := false, sferr := false }

/-- The stream behind its first byte. -/
def oneRead : Stream := (fgetc (some 512) none threeBytes).2

theorem oneRead_reachable : Reachable oneRead := .fgetc (.opened ⟨rfl, rfl, rfl, rfl⟩) (some 512) none

theorem fseek_failed_iff_current :
    (oneRead.dirty = true → (flush [] oneRead).1 = 0) ∧ Fails [] true (-5) 1 oneRead ∧
      (((fseek [] true (-5) 1 oneRead).ret ≠ 0 ∧ SameView oneRead (fseek [] true (-5) 1 oneRead).stream) ↔
        Kept oneRead (-5) 1) := by
  have hflush : oneRead.dirty = true → (flush [] oneRead).1 = 0 := fun h => absurd h (by decide)
  have hfails : Fails [] true (-5) 1 oneRead := .inl (by decide)
  exact ⟨hflush, hfails, fseek_failed_iff oneRead_reachable [] true (-5) 1 hflush hfails⟩

/-- A seek from the end that fails loses the two bytes that are in the buffer. -/
theorem not_fseek_failed : ¬ ∀ s : Stream, Reachable s → ∀ (answers : List Answer) (works : Bool) (offset : BitVec 32)
    (origin : Int), (s.dirty = true → (flush answers s).1 = 0) → Fails answers works offset origin s →
      (fseek answers works offset origin s).ret ≠ 0 ∧
        SameView s (fseek answers works offset origin s).stream := by
  intro h
  have hfails : Fails [] true (-5) 2 oneRead := .inl (by decide)
  have hkept := h oneRead oneRead_reachable [] true (-5) 2 (fun hd => absurd hd (by decide)) hfails
  rw [failed_end (by decide) (by decide) hfails] at hkept
  exact absurd hkept (by decide)

end OpenWatcom.StreamSeek
