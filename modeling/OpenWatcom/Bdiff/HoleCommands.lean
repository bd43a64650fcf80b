import OpenWatcom.Lib.LittleEndian

/-! # Holes in patch files

`ProcessHoleArray` writes the commands for the holes of a patch: `CMD_ITER_HOLES` for a run of holes with one difference
and one distance, and `CMD_HOLES` for other holes with one difference, with the distances in one to three bytes
(`OutVar`) and a zero behind them.  `Execute` reads them.

The three bytes have room for 22 bits only, and a list of holes with difference 0 that comes behind a run has no
command of its own.  `inStep_iff` says that all other lists of holes come back. -/

namespace OpenWatcom.Bdiff

/-- `region`, as far as holes use it. -/
structure Region where
  newStart : ℕ
  diff : ℕ
  deriving DecidableEq

/-- The size of an enumeration. -/
inductive EnumSize where
  | one
  | two
  | four

/-- `sizeof( patch_cmd )`. -/
def EnumSize.bytes : EnumSize → ℕ
  | one => 1
  | two => 2
  | four => 4

def cmdHoles : ℕ := 3

def cmdIterHoles : ℕ := 4

/-- `MIN_ITERS`, with four bytes for a `hole` and for a `foff`. -/
def minIters (size : EnumSize) : ℕ := size.bytes + 4 + 4 + 4

/-! ### The writer

Numbers are written as they are in memory, the low byte first. -/

/-- The difference of two numbers of type `foff`. -/
def foffSub (a b : ℕ) : ℕ := (a + 2 ^ 32 - b) % 2 ^ 32

/-- `OutVar`. -/
def outVar (value : ℕ) : List UInt8 :=
  if value ≤ 0x7f then [UInt8.ofNat (value &&& 0x7f)]
  else if value ≤ 0x3fff then [UInt8.ofNat (0x80 ||| ((value >>> 8) &&& 0x3f)), UInt8.ofNat (value &&& 0xff)]
  else [UInt8.ofNat (0xC0 ||| ((value >>> 16) &&& 0x3f)), UInt8.ofNat ((value >>> 8) &&& 0xff),
    UInt8.ofNat (value &&& 0xff)]

/-- What is written at once: a command, a distance, or the zero behind a list. -/
inductive Item where
  | iterHoles (newStart diff iters incr : ℕ)
  | holes (newStart diff : ℕ)
  | var (value : ℕ)
  | zero

namespace Item

/-- The bytes that are written. -/
def bytes (size : EnumSize) : Item → List UInt8
  | iterHoles newStart diff iters incr =>
    leBytes size.bytes cmdIterHoles ++ (leBytes 4 newStart ++ (leBytes 4 diff ++ (leBytes 4 iters ++ leBytes 4 incr)))
  | holes newStart diff => leBytes size.bytes cmdHoles ++ (leBytes 4 newStart ++ leBytes 4 diff)
  | var value => outVar value
  | zero => [0]

def isCommand : Item → Bool
  | iterHoles _ _ _ _ => true
  | holes _ _ => true
  | var _ => false
  | zero => false

end Item

/-- The bytes of some items. -/
def stream (size : EnumSize) (items : List Item) : List UInt8 := items.flatMap (Item.bytes size)

/-- The loop over `end_iters`: how many holes follow one another with the difference and one distance, and the
distance. -/
def iterLoop (diff prev incr iters : ℕ) : List Region → ℕ × ℕ
  | [] => (iters, incr)
  | e :: rest =>
    if diff ≠ e.diff then (iters, incr)
    else if incr ≠ 0 ∧ incr ≠ foffSub e.newStart prev then (iters, incr)
    else iterLoop diff e.newStart (foffSub e.newStart prev) (iters + 1) rest

/-- The run that begins with `curr`. -/
def runOf (curr : Region) (rest : List Region) : ℕ × ℕ := iterLoop curr.diff curr.newStart 0 1 rest

/-- The loop of `ProcessHoleArray`. -/
def loop (size : EnumSize) (first : Bool) (currStart currDiff : ℕ) : List Region → List Item
  | [] => []
  | curr :: rest =>
    if minIters size < (runOf curr rest).1 then
      (if first then [] else [.zero]) ++
        .iterHoles curr.newStart curr.diff (runOf curr rest).1 (runOf curr rest).2 ::
          loop size false ((curr :: rest).getD ((runOf curr rest).1 - 1) curr).newStart 0
            (rest.drop ((runOf curr rest).1 - 1))
    else if first = true ∨ curr.diff ≠ currDiff then
      (if first then [] else [.zero]) ++ .holes curr.newStart curr.diff :: loop size false curr.newStart curr.diff rest
    else .var (foffSub curr.newStart currStart) :: loop size first curr.newStart currDiff rest
termination_by l => l.length
decreasing_by all_goals (simp only [List.length_drop, List.length_cons]; omega)

/-- `ProcessHoleArray`. -/
def processHoleArray (size : EnumSize) (holes : List Region) : List Item :=
  if holes = [] then [] else loop size true 0 0 holes ++ [.zero]

/-! ### The reader -/

/-- The loop of `CMD_HOLES`: the calls of `AddHole` and the bytes that are left. -/
def holesLoop (newOffset diff : ℕ) : List UInt8 → Option (List (ℕ × ℕ) × List UInt8)
  | [] => none
  | next :: l =>
    if next.toNat = 0 then some ([(newOffset, diff)], l)
    else if next.toNat &&& 0x80 = 0 then
      (holesLoop ((newOffset + (next.toNat &&& 0x7f)) % 2 ^ 32) diff l).map fun r => ((newOffset, diff) :: r.1, r.2)
    else if next.toNat &&& 0x40 = 0 then
      match l with
      | [] => none
      | b :: l =>
        (holesLoop ((newOffset + ((next.toNat &&& 0x3f) <<< 8) + b.toNat) % 2 ^ 32) diff l).map fun r =>
          ((newOffset, diff) :: r.1, r.2)
    else
      match l with
      | b :: c :: l =>
        (holesLoop ((newOffset + ((next.toNat &&& 0x3f) <<< 16) + (b.toNat <<< 8) + c.toNat) % 2 ^ 32) diff l).map
          fun r => ((newOffset, diff) :: r.1, r.2)
      | _ => none

/-- The loop of `CMD_ITER_HOLES`. -/
def itersLoop (newOffset diff incr : ℕ) : ℕ → List (ℕ × ℕ)
  | 0 => []
  | iters + 1 => (newOffset, diff) :: itersLoop ((newOffset + incr) % 2 ^ 32) diff incr iters

/-- A round of the loop of `Execute`, for the commands with holes. -/
def executeCommand (size : EnumSize) (input : List UInt8) : Option (List (ℕ × ℕ) × List UInt8) :=
  (readLe size.bytes input).bind fun (cmd, input) =>
    if cmd = cmdIterHoles then
      (readLe 4 input).bind fun (newOffset, input) =>
        (readLe 4 input).bind fun (diff, input) =>
          (readLe 4 input).bind fun (iters, input) =>
            (readLe 4 input).bind fun (incr, input) =>
              (readLe 1 input).map fun (_, input) => (itersLoop newOffset diff incr iters, input)
    else if cmd = cmdHoles then
      (readLe 4 input).bind fun (newOffset, input) =>
        (readLe 4 input).bind fun (diff, input) => holesLoop newOffset diff input
    else none

/-! ### Staying in step -/

/-- From the next command on. -/
def nextCommand (items : List Item) : List Item := items.dropWhile fun i => !i.isCommand

/-- Every command is read where it was written, whatever is behind them all, and together they add `holes`. -/
inductive InStep (size : EnumSize) : List Item → List (ℕ × ℕ) → Prop
  | done : InStep size [] []
  | command {item : Item} {items : List Item} {holes holes' : List (ℕ × ℕ)} (hcommand : item.isCommand = true)
      (hexec : ∀ rest, executeCommand size (stream size (item :: items) ++ rest) =
        some (holes, stream size (nextCommand items) ++ rest))
      (hnext : InStep size (nextCommand items) holes') : InStep size (item :: items) (holes ++ holes')

/-- What holes are to add. -/
def adds (holes : List Region) : List (ℕ × ℕ) := holes.map fun r => (r.newStart, r.diff)

/-- Holes as `SortHoleArray` leaves them, at different offsets of a file that is smaller than 4 GB. -/
structure HoleArray where
  holes : List Region
  sorted : holes.Pairwise fun a b => a.diff < b.diff ∨ a.diff = b.diff ∧ a.newStart ≤ b.newStart
  distinct : (holes.map Region.newStart).Nodup
  small : ∀ r ∈ holes, r.newStart + 4 < 2 ^ 32 ∧ r.diff < 2 ^ 32

/-- The holes that go into a list with the difference: up to the next run or another difference. -/
def takeList (size : EnumSize) (diff : ℕ) : List Region → List Region
  | [] => []
  | curr :: rest =>
    if minIters size < (runOf curr rest).1 ∨ curr.diff ≠ diff then [] else curr :: takeList size diff rest

/-- The holes behind these. -/
def dropList (size : EnumSize) (diff : ℕ) : List Region → List Region
  | [] => []
  | curr :: rest =>
    if minIters size < (runOf curr rest).1 ∨ curr.diff ≠ diff then curr :: rest else dropList size diff rest

/-- The holes are runs and lists, neighbours in a list are less than 4 MB apart, and no list with difference 0 is right
behind a run. -/
inductive Fits (size : EnumSize) : List Region → Prop
  | nil : Fits size []
  | run {curr : Region} {rest : List Region} (hrun : minIters size < (runOf curr rest).1)
      (hbehind : takeList size 0 (rest.drop ((runOf curr rest).1 - 1)) = [])
      (hrest : Fits size (rest.drop ((runOf curr rest).1 - 1))) : Fits size (curr :: rest)
  | list {curr : Region} {rest : List Region} (hlist : ¬ minIters size < (runOf curr rest).1)
      (hnear : (curr :: takeList size curr.diff rest).IsChain fun a b => b.newStart - a.newStart < 2 ^ 22)
      (hrest : Fits size (dropList size curr.diff rest)) : Fits size (curr :: rest)

variable {size : EnumSize}

/-! ### Distances -/

theorem marks_two : ∀ x < 64, (UInt8.ofNat (0x80 ||| x)).toNat ≠ 0 ∧ (UInt8.ofNat (0x80 ||| x)).toNat &&& 0x80 ≠ 0 ∧
    (UInt8.ofNat (0x80 ||| x)).toNat &&& 0x40 = 0 ∧ (UInt8.ofNat (0x80 ||| x)).toNat &&& 0x3f = x := by decide

theorem marks_three : ∀ x < 64, (UInt8.ofNat (0xC0 ||| x)).toNat ≠ 0 ∧ (UInt8.ofNat (0xC0 ||| x)).toNat &&& 0x80 ≠ 0 ∧
    (UInt8.ofNat (0xC0 ||| x)).toNat &&& 0x40 ≠ 0 ∧ (UInt8.ofNat (0xC0 ||| x)).toNat &&& 0x3f = x := by decide

theorem marks_one : ∀ x < 128, (UInt8.ofNat x).toNat = x ∧ x &&& 0x80 = 0 ∧ x &&& 0x7f = x := by decide

theorem and_low (n : ℕ) : n &&& 0x3f = n % 64 := Nat.and_two_pow_sub_one_eq_mod n 6

theorem and_byte (n : ℕ) : n &&& 0xff = n % 256 := Nat.and_two_pow_sub_one_eq_mod n 8

theorem toNat_byte (n : ℕ) : (UInt8.ofNat (n &&& 0xff)).toNat = n % 256 := by
  rw [and_byte]
  simp

/-- A distance is read modulo 4 MB. -/
theorem holesLoop_outVar {value : ℕ} (h : 0 < value) (newOffset diff : ℕ) (l : List UInt8) :
    holesLoop newOffset diff (outVar value ++ l) =
      (holesLoop ((newOffset + value % 2 ^ 22) % 2 ^ 32) diff l).map fun r => ((newOffset, diff) :: r.1, r.2) := by
  unfold outVar
  split_ifs with hone htwo
  · have hand : value &&& 0x7f = value := by
      rw [Nat.and_two_pow_sub_one_eq_mod value 7]
      omega
    obtain ⟨hval, hbit, hlow⟩ := marks_one value (by omega)
    have hmod : value % 2 ^ 22 = value := by omega
    rw [hand, List.singleton_append, holesLoop.eq_def]
    dsimp only
    rw [hval, if_neg (by omega), if_pos hbit, hlow, hmod]
  · have hlt : (value >>> 8) &&& 0x3f < 64 := by
      rw [and_low]
      omega
    obtain ⟨h0, h80, h40, hlow⟩ := marks_two _ hlt
    have hsum : newOffset + (((value >>> 8) &&& 0x3f) <<< 8) + value % 256 = newOffset + value % 2 ^ 22 := by
      rw [and_low, Nat.shiftLeft_eq, Nat.shiftRight_eq_div_pow]
      omega
    rw [List.cons_append, List.singleton_append, holesLoop.eq_def]
    dsimp only
    rw [if_neg h0, if_neg h80, if_pos h40, hlow, toNat_byte, hsum]
  · have hlt : (value >>> 16) &&& 0x3f < 64 := by
      rw [and_low]
      omega
    obtain ⟨h0, h80, h40, hlow⟩ := marks_three _ hlt
    have hsum : newOffset + (((value >>> 16) &&& 0x3f) <<< 16) + (((value >>> 8) % 256) <<< 8) + value % 256 =
        newOffset + value % 2 ^ 22 := by
      rw [and_low, Nat.shiftLeft_eq, Nat.shiftLeft_eq, Nat.shiftRight_eq_div_pow, Nat.shiftRight_eq_div_pow]
      omega
    rw [List.cons_append, List.cons_append, List.singleton_append, holesLoop.eq_def]
    dsimp only
    rw [if_neg h0, if_neg h80, if_neg h40, hlow, toNat_byte, toNat_byte, hsum]

theorem outVar_ne_nil (value : ℕ) : ∃ b l, outVar value = b :: l := by
  unfold outVar
  split_ifs <;> exact ⟨_, _, rfl⟩

/-! ### Runs -/

/-- The order of the holes: by difference and by offset, which are all different. -/
def Ordered (holes : List Region) : Prop :=
  holes.Pairwise fun a b => a.diff < b.diff ∨ a.diff = b.diff ∧ a.newStart < b.newStart

/-- Offsets and differences are in 32 bits. -/
def Small (holes : List Region) : Prop := ∀ r ∈ holes, r.newStart < 2 ^ 32 ∧ r.diff < 2 ^ 32

theorem foffSub_eq {a b : ℕ} (hab : b ≤ a) (ha : a < 2 ^ 32) : foffSub a b = a - b := by
  unfold foffSub
  omega

/-- How many of the holes belong to a run, and the distance; they are what `Execute` adds for it. -/
theorem iterLoop_spec {diff : ℕ} (rest : List Region) : ∀ prev incr iters : ℕ,
    Ordered (⟨prev, diff⟩ :: rest) → Small rest → incr < 2 ^ 32 →
    ∃ n ≤ rest.length, ∃ incr' < 2 ^ 32, iterLoop diff prev incr iters rest = (iters + n, incr') ∧
      (incr ≠ 0 → incr' = incr) ∧ adds (⟨prev, diff⟩ :: rest.take n) = itersLoop prev diff incr' (n + 1) := by
  induction rest with
  | nil => exact fun prev incr iters _ _ hincr => ⟨0, le_rfl, incr, hincr, rfl, fun _ => rfl, rfl⟩
  | cons e rest ih =>
      intro prev incr iters hord hsmall hincr
      have hstop : ∃ n ≤ (e :: rest).length, ∃ incr' < 2 ^ 32, (iters, incr) = (iters + n, incr') ∧
          (incr ≠ 0 → incr' = incr) ∧ adds (⟨prev, diff⟩ :: (e :: rest).take n) = itersLoop prev diff incr' (n + 1) :=
        ⟨0, Nat.zero_le _, incr, hincr, rfl, fun _ => rfl, rfl⟩
      unfold iterLoop
      split_ifs with hdiff hsame
      · exact hstop
      · exact hstop
      · obtain ⟨hfirst, hrest⟩ := List.pairwise_cons.mp hord
        obtain ⟨hstart, -⟩ := hsmall e List.mem_cons_self
        have hdiff' : diff = e.diff := not_not.mp hdiff
        have hlt : prev < e.newStart := by
          have := hfirst e List.mem_cons_self
          dsimp only at this
          omega
        have hsub := foffSub_eq hlt.le hstart
        have heq : (⟨e.newStart, diff⟩ : Region) = e := by rw [hdiff']
        obtain ⟨n, hn, incr', hincr', hloop, hkeep, hadds⟩ := ih e.newStart (foffSub e.newStart prev) (iters + 1)
          (by rw [heq]; exact hrest) (fun r hr => hsmall r (List.mem_cons_of_mem _ hr)) (by omega)
        have hdist : incr' = e.newStart - prev := (hkeep (by omega)).trans hsub
        refine ⟨n + 1, by rw [List.length_cons]; omega, incr', hincr', ?_, fun hne => ?_, ?_⟩
        · rw [hloop]
          congr 1
          omega
        · rw [hdist, ← hsub]
          by_contra hother
          exact hsame ⟨hne, fun h => hother h.symm⟩
        · have hnext : (prev + incr') % 2 ^ 32 = e.newStart := by omega
          rw [List.take_succ_cons, itersLoop, hnext, ← hadds, heq]
          rfl

theorem runOf_spec {curr : Region} {rest : List Region} (hord : Ordered (curr :: rest))
    (hsmall : Small (curr :: rest)) :
    ∃ n ≤ rest.length, ∃ incr < 2 ^ 32, runOf curr rest = (n + 1, incr) ∧
      adds (curr :: rest.take n) = itersLoop curr.newStart curr.diff incr (n + 1) := by
  obtain ⟨n, hn, incr, hincr, hloop, -, hadds⟩ := iterLoop_spec rest curr.newStart 0 1 hord
    (fun r hr => hsmall r (List.mem_cons_of_mem _ hr)) (Nat.two_pow_pos 32)
  exact ⟨n, hn, incr, hincr, hloop.trans (by rw [Nat.add_comm]), hadds⟩

/-! ### Commands -/

theorem cmd_lt (size : EnumSize) : cmdIterHoles < 256 ^ size.bytes ∧ cmdHoles < 256 ^ size.bytes := by
  cases size <;> decide

theorem readLe_one (b : UInt8) (l : List UInt8) : readLe 1 (b :: l) = some (leVal [b], l) := by
  unfold readLe
  rw [if_pos (by rw [List.length_cons]; omega)]
  rfl

theorem execute_iterHoles {newStart diff iters incr : ℕ} (hstart : newStart < 2 ^ 32) (hdiff : diff < 2 ^ 32)
    (hiters : iters < 2 ^ 32) (hincr : incr < 2 ^ 32) (b : UInt8) (l : List UInt8) :
    executeCommand size ((Item.iterHoles newStart diff iters incr).bytes size ++ b :: l) =
      some (itersLoop newStart diff incr iters, l) := by
  unfold executeCommand Item.bytes
  simp only [List.append_assoc]
  rw [readLe_append (cmd_lt size).1, Option.bind_some, if_pos rfl, readLe_append hstart, Option.bind_some,
    readLe_append hdiff, Option.bind_some, readLe_append hiters, Option.bind_some, readLe_append hincr,
    Option.bind_some, readLe_one]
  rfl

theorem execute_holes {newStart diff : ℕ} (hstart : newStart < 2 ^ 32) (hdiff : diff < 2 ^ 32) (l : List UInt8) :
    executeCommand size ((Item.holes newStart diff).bytes size ++ l) = holesLoop newStart diff l := by
  unfold executeCommand Item.bytes
  simp only [List.append_assoc]
  rw [readLe_append (cmd_lt size).2, Option.bind_some, if_neg (by exact Nat.succ_ne_self 3 ∘ Eq.symm), if_pos rfl,
    readLe_append hstart, Option.bind_some, readLe_append hdiff, Option.bind_some]

/-! ### Lists -/

/-- The distances of a list. -/
def vars (currStart : ℕ) : List Region → List Item
  | [] => []
  | curr :: rest => .var (foffSub curr.newStart currStart) :: vars curr.newStart rest

/-- The offsets that are read for a list whose first hole, at `start`, is taken to be at `newOffset`. -/
def decoded (diff : ℕ) : ℕ → ℕ → List Region → List (ℕ × ℕ)
  | _, newOffset, [] => [(newOffset, diff)]
  | start, newOffset, curr :: rest =>
    (newOffset, diff) ::
      decoded diff curr.newStart ((newOffset + (curr.newStart - start) % 2 ^ 22) % 2 ^ 32) rest

theorem stream_append (items items' : List Item) :
    stream size (items ++ items') = stream size items ++ stream size items' :=
  List.flatMap_append

theorem stream_cons (item : Item) (items : List Item) :
    stream size (item :: items) = item.bytes size ++ stream size items :=
  List.flatMap_cons

section loop

variable {first : Bool} {currStart currDiff : ℕ} {curr : Region} {rest : List Region}

theorem loop_run (hrun : minIters size < (runOf curr rest).1) : loop size first currStart currDiff (curr :: rest) =
    (if first then [] else [.zero]) ++
      .iterHoles curr.newStart curr.diff (runOf curr rest).1 (runOf curr rest).2 ::
        loop size false ((curr :: rest).getD ((runOf curr rest).1 - 1) curr).newStart 0
          (rest.drop ((runOf curr rest).1 - 1)) := by
  rw [loop, if_pos hrun]

theorem loop_holes (hrun : ¬ minIters size < (runOf curr rest).1) (hhead : first = true ∨ curr.diff ≠ currDiff) :
    loop size first currStart currDiff (curr :: rest) = (if first then [] else [.zero]) ++
      .holes curr.newStart curr.diff :: loop size false curr.newStart curr.diff rest := by
  rw [loop, if_neg hrun, if_pos hhead]

theorem loop_var (hrun : ¬ minIters size < (runOf curr rest).1) (hhead : ¬ (first = true ∨ curr.diff ≠ currDiff)) :
    loop size first currStart currDiff (curr :: rest) =
      .var (foffSub curr.newStart currStart) :: loop size first curr.newStart currDiff rest := by
  rw [loop, if_neg hrun, if_neg hhead]

/-- With a run in front. -/
theorem processHoleArray_run (hrun : minIters size < (runOf curr rest).1) : processHoleArray size (curr :: rest) =
    .iterHoles curr.newStart curr.diff (runOf curr rest).1 (runOf curr rest).2 ::
      (loop size false ((curr :: rest).getD ((runOf curr rest).1 - 1) curr).newStart 0
        (rest.drop ((runOf curr rest).1 - 1)) ++ [.zero]) := by
  rw [processHoleArray, if_neg (List.cons_ne_nil _ _), loop_run hrun]
  rfl

/-- With a list in front. -/
theorem processHoleArray_holes (hrun : ¬ minIters size < (runOf curr rest).1) :
    processHoleArray size (curr :: rest) =
      .holes curr.newStart curr.diff :: (loop size false curr.newStart curr.diff rest ++ [.zero]) := by
  rw [processHoleArray, if_neg (List.cons_ne_nil _ _), loop_holes hrun (.inl rfl)]
  rfl

end loop

/-- What is written behind a command for a list: its distances, a zero, and the other commands. -/
theorem loop_list (diff : ℕ) (holes : List Region) : ∀ currStart,
    loop size false currStart diff holes ++ [.zero] =
      vars currStart (takeList size diff holes) ++ .zero :: processHoleArray size (dropList size diff holes) := by
  induction holes with
  | nil =>
      intro currStart
      rw [loop]
      rfl
  | cons curr rest ih =>
      intro currStart
      unfold takeList dropList
      by_cases hrun : minIters size < (runOf curr rest).1
      · rw [if_pos (.inl hrun), if_pos (.inl hrun), processHoleArray_run hrun, loop_run hrun]
        rfl
      · by_cases hdiff : curr.diff ≠ diff
        · rw [if_pos (.inr hdiff), if_pos (.inr hdiff), processHoleArray_holes hrun, loop_holes hrun (.inr hdiff)]
          rfl
        · have hnot : ¬ (minIters size < (runOf curr rest).1 ∨ curr.diff ≠ diff) := not_or.mpr ⟨hrun, hdiff⟩
          have hhead : ¬ (false = true ∨ curr.diff ≠ diff) := not_or.mpr ⟨Bool.false_ne_true, hdiff⟩
          rw [if_neg hnot, if_neg hnot, loop_var hrun hhead, vars, List.cons_append, List.cons_append, ih]

/-- The commands begin with a command. -/
theorem processHoleArray_cases (size : EnumSize) (holes : List Region) :
    processHoleArray size holes = [] ∨
      ∃ item items, processHoleArray size holes = item :: items ∧ item.isCommand = true := by
  cases holes with
  | nil => exact .inl rfl
  | cons curr rest =>
      by_cases hrun : minIters size < (runOf curr rest).1
      · exact .inr ⟨_, _, processHoleArray_run hrun, rfl⟩
      · exact .inr ⟨_, _, processHoleArray_holes hrun, rfl⟩

/-- Behind a list the next command is read. -/
theorem nextCommand_vars (currStart : ℕ) (p holes : List Region) :
    nextCommand (vars currStart p ++ .zero :: processHoleArray size holes) = processHoleArray size holes := by
  induction p generalizing currStart with
  | nil =>
      have hzero : nextCommand (.zero :: processHoleArray size holes) = nextCommand (processHoleArray size holes) := rfl
      rw [vars, List.nil_append, hzero]
      obtain hnil | ⟨item, items, hitems, hcommand⟩ := processHoleArray_cases size holes
      · rw [hnil]
        rfl
      · rw [hitems, nextCommand, List.dropWhile_cons, hcommand]
        rfl
  | cons curr p ih => exact ih curr.newStart

theorem holesLoop_zero (newOffset diff : ℕ) (l : List UInt8) :
    holesLoop newOffset diff (0 :: l) = some ([(newOffset, diff)], l) := by
  rw [holesLoop.eq_def]
  rfl

/-- What is read for a list. -/
theorem holesLoop_vars (size : EnumSize) (diff : ℕ) (items : List Item) (l : List UInt8) (p : List Region) :
    ∀ start newOffset : ℕ,
    (⟨start, diff⟩ :: p).Pairwise (fun a b => a.newStart < b.newStart) → Small p →
    holesLoop newOffset diff (stream size (vars start p ++ .zero :: items) ++ l) =
      some (decoded diff start newOffset p, stream size items ++ l) := by
  induction p with
  | nil =>
      intro start newOffset _ _
      rw [vars, List.nil_append, stream_cons]
      exact holesLoop_zero newOffset diff _
  | cons curr p ih =>
      intro start newOffset hord hsmall
      obtain ⟨hfirst, hrest⟩ := List.pairwise_cons.mp hord
      have hlt : start < curr.newStart := hfirst curr List.mem_cons_self
      have hsub := foffSub_eq hlt.le (hsmall curr List.mem_cons_self).1
      have hrest' : (⟨curr.newStart, diff⟩ :: p : List Region).Pairwise fun a b => a.newStart < b.newStart := by
        obtain ⟨hcurr, hp⟩ := List.pairwise_cons.mp hrest
        exact List.pairwise_cons.mpr ⟨hcurr, hp⟩
      rw [vars, List.cons_append, stream_cons, List.append_assoc]
      have hvar : (Item.var (foffSub curr.newStart start)).bytes size = outVar (foffSub curr.newStart start) := rfl
      rw [hvar, holesLoop_outVar (by omega), ih _ _ hrest' (fun r hr => hsmall r (List.mem_cons_of_mem _ hr)), hsub,
        Option.map_some]
      rfl

/-- The offsets are right if and only if neighbours are less than 4 MB apart. -/
theorem decoded_iff (diff : ℕ) (p : List Region) : ∀ start : ℕ,
    (⟨start, diff⟩ :: p).Pairwise (fun a b => a.newStart < b.newStart) → (∀ r ∈ p, r.diff = diff) → Small p →
    (decoded diff start start p = (start, diff) :: adds p ↔
      (⟨start, diff⟩ :: p).IsChain fun a b => b.newStart - a.newStart < 2 ^ 22) := by
  induction p with
  | nil => exact fun start _ _ _ => ⟨fun _ => .singleton _, fun _ => rfl⟩
  | cons curr p ih =>
      intro start hord hdiff hsmall
      obtain ⟨hfirst, hrest⟩ := List.pairwise_cons.mp hord
      have hlt : start < curr.newStart := hfirst curr List.mem_cons_self
      have hbound := (hsmall curr List.mem_cons_self).1
      have hcurr : (⟨curr.newStart, diff⟩ : Region) = curr := by rw [← hdiff curr List.mem_cons_self]
      have hrec := ih curr.newStart (by rwa [hcurr]) (fun r hr => hdiff r (List.mem_cons_of_mem _ hr))
        (fun r hr => hsmall r (List.mem_cons_of_mem _ hr))
      rw [hcurr] at hrec
      have hadds : adds (curr :: p) = (curr.newStart, diff) :: adds p := by
        rw [← hdiff curr List.mem_cons_self]
        rfl
      rw [List.isChain_cons_cons, ← hrec, decoded, hadds, List.cons.injEq]
      dsimp only
      constructor
      · rintro ⟨-, hdec⟩
        have hhead : (start + (curr.newStart - start) % 2 ^ 22) % 2 ^ 32 = curr.newStart := by
          cases p with
          | nil => exact congrArg Prod.fst (List.cons.inj hdec).1
          | cons _ _ => exact congrArg Prod.fst (List.cons.inj hdec).1
        rw [hhead] at hdec
        exact ⟨by omega, hdec⟩
      · rintro ⟨hnear, hdec⟩
        have hhead : (start + (curr.newStart - start) % 2 ^ 22) % 2 ^ 32 = curr.newStart := by omega
        rw [hhead]
        exact ⟨rfl, hdec⟩

/-! ### Writing and reading -/

theorem inStep_command_iff {item : Item} {items : List Item} {added total : List (ℕ × ℕ)}
    (hcommand : item.isCommand = true) (hexec : ∀ rest, executeCommand size (stream size (item :: items) ++ rest) =
      some (added, stream size (nextCommand items) ++ rest)) :
    InStep size (item :: items) total ↔ ∃ others, total = added ++ others ∧ InStep size (nextCommand items) others := by
  constructor
  · rintro (_ | ⟨_, hexec', hnext⟩)
    have hsame := (hexec []).symm.trans (hexec' [])
    have hadded := congrArg Prod.fst (Option.some.inj hsame)
    dsimp only at hadded
    subst hadded
    exact ⟨_, rfl, hnext⟩
  · rintro ⟨others, rfl, hnext⟩
    exact .command hcommand hexec hnext

/-- The first command is read where it ends. -/
theorem InStep.head {item : Item} {items : List Item} {total : List (ℕ × ℕ)} (h : InStep size (item :: items) total) :
    ∃ added, ∀ rest, executeCommand size (stream size (item :: items) ++ rest) =
      some (added, stream size (nextCommand items) ++ rest) := by
  obtain _ | ⟨_, hexec, _⟩ := h
  exact ⟨_, hexec⟩

theorem takeList_append_dropList (size : EnumSize) (diff : ℕ) (holes : List Region) :
    takeList size diff holes ++ dropList size diff holes = holes := by
  induction holes with
  | nil => rfl
  | cons curr rest ih =>
      unfold takeList dropList
      split_ifs
      · rfl
      · rw [List.cons_append, ih]

theorem diff_of_mem_takeList {diff : ℕ} {holes : List Region} {r : Region} (h : r ∈ takeList size diff holes) :
    r.diff = diff := by
  induction holes with
  | nil => exact nomatch h
  | cons curr rest ih =>
      unfold takeList at h
      split_ifs at h with hstop
      · exact nomatch h
      · obtain rfl | h := List.mem_cons.mp h
        · exact not_not.mp (not_or.mp hstop).2
        · exact ih h

theorem Ordered.drop {holes : List Region} (h : Ordered holes) (n : ℕ) : Ordered (holes.drop n) :=
  h.sublist (List.drop_sublist n holes)

theorem Small.drop {holes : List Region} (h : Small holes) (n : ℕ) : Small (holes.drop n) :=
  fun r hr => h r (List.mem_of_mem_drop hr)

theorem dropList_of_takeList_nil {diff : ℕ} {holes : List Region} (h : takeList size diff holes = []) :
    dropList size diff holes = holes := by
  have happend := takeList_append_dropList size diff holes
  rwa [h, List.nil_append] at happend

theorem takeList_sublist (size : EnumSize) (diff : ℕ) (holes : List Region) :
    (takeList size diff holes).Sublist holes := by
  conv_rhs => rw [← takeList_append_dropList size diff holes]
  exact List.sublist_append_left _ _

theorem dropList_sublist (size : EnumSize) (diff : ℕ) (holes : List Region) :
    (dropList size diff holes).Sublist holes := by
  conv_rhs => rw [← takeList_append_dropList size diff holes]
  exact List.sublist_append_right _ _

/-- A list has one difference, so its offsets are in order. -/
theorem takeList_increasing (size : EnumSize) {curr : Region} {rest : List Region} (hord : Ordered (curr :: rest)) :
    (curr :: takeList size curr.diff rest).Pairwise fun a b => a.newStart < b.newStart := by
  have hdiffs : ∀ r ∈ curr :: takeList size curr.diff rest, r.diff = curr.diff := fun r hr => by
    obtain rfl | hr := List.mem_cons.mp hr
    · rfl
    · exact diff_of_mem_takeList hr
  have hord' : Ordered (curr :: takeList size curr.diff rest) :=
    hord.sublist ((takeList_sublist size curr.diff rest).cons_cons curr)
  refine hord'.imp_of_mem fun {a b} ha hb hab => ?_
  have hda := hdiffs a ha
  have hdb := hdiffs b hb
  omega

theorem adds_append (holes holes' : List Region) : adds (holes ++ holes') = adds holes ++ adds holes' :=
  List.map_append

theorem length_decoded (diff : ℕ) (p : List Region) : ∀ start newOffset : ℕ,
    (decoded diff start newOffset p).length = (adds p).length + 1 := by
  induction p with
  | nil => exact fun _ _ => rfl
  | cons r p ih => exact fun _ _ => congrArg (· + 1) (ih _ _)

theorem fits_run_iff {curr : Region} {rest : List Region} (hrun : minIters size < (runOf curr rest).1) :
    Fits size (curr :: rest) ↔ takeList size 0 (rest.drop ((runOf curr rest).1 - 1)) = [] ∧
      Fits size (rest.drop ((runOf curr rest).1 - 1)) := by
  constructor
  · rintro (_ | ⟨_, hbehind, hrest⟩ | ⟨hlist, _, _⟩)
    · exact ⟨hbehind, hrest⟩
    · exact absurd hrun hlist
  · rintro ⟨hbehind, hrest⟩
    exact .run hrun hbehind hrest

theorem fits_list_iff {curr : Region} {rest : List Region} (hlist : ¬ minIters size < (runOf curr rest).1) :
    Fits size (curr :: rest) ↔
      (curr :: takeList size curr.diff rest).IsChain (fun a b => b.newStart - a.newStart < 2 ^ 22) ∧
        Fits size (dropList size curr.diff rest) := by
  constructor
  · rintro (_ | ⟨hrun, _, _⟩ | ⟨_, hnear, hrest⟩)
    · exact absurd hrun hlist
    · exact ⟨hnear, hrest⟩
  · rintro ⟨hnear, hrest⟩
    exact .list hlist hnear hrest

/-- The bytes of a list that is not empty begin with those of its first distance. -/
theorem stream_vars_cons (size : EnumSize) (start : ℕ) (next : Region) (p : List Region) (items : List Item) :
    ∃ b l, stream size (vars start (next :: p) ++ .zero :: items) =
      b :: (l ++ stream size (vars next.newStart p) ++ 0 :: stream size items) := by
  obtain ⟨b, l, hvar⟩ := outVar_ne_nil (foffSub next.newStart start)
  have hbyte : (Item.var (foffSub next.newStart start)).bytes size = b :: l := hvar
  refine ⟨b, l, ?_⟩
  rw [vars, List.cons_append, stream_cons, stream_append, stream_cons, hbyte, List.cons_append, List.append_assoc]
  rfl

/-- A run in front. -/
theorem inStep_run {curr : Region} {rest : List Region} (hord : Ordered (curr :: rest)) (hsmall : Small (curr :: rest))
    (hcount : rest.length + 1 < 2 ^ 32) (hrun : minIters size < (runOf curr rest).1)
    (ih : InStep size (processHoleArray size (rest.drop ((runOf curr rest).1 - 1)))
      (adds (rest.drop ((runOf curr rest).1 - 1))) ↔ Fits size (rest.drop ((runOf curr rest).1 - 1))) :
    InStep size (processHoleArray size (curr :: rest)) (adds (curr :: rest)) ↔ Fits size (curr :: rest) := by
  obtain ⟨n, hn, incr, hincr, hrunOf, hadds⟩ := runOf_spec hord hsmall
  obtain ⟨hstart, hdiff⟩ := hsmall curr List.mem_cons_self
  have hitems := processHoleArray_run hrun
  rw [loop_list] at hitems
  rw [fits_run_iff hrun, hitems, ← ih, hrunOf, Nat.add_sub_cancel]
  have hsplit : adds (curr :: rest) = itersLoop curr.newStart curr.diff incr (n + 1) ++ adds (rest.drop n) := by
    rw [← hadds, ← adds_append, List.cons_append, List.take_append_drop]
  have hhead : ∀ b l, executeCommand size ((Item.iterHoles curr.newStart curr.diff (n + 1) incr).bytes size ++ b :: l) =
      some (itersLoop curr.newStart curr.diff incr (n + 1), l) :=
    execute_iterHoles hstart hdiff (by omega) hincr
  dsimp only
  cases htake : takeList size 0 (rest.drop n) with
  | nil =>
      rw [dropList_of_takeList_nil htake, vars, List.nil_append]
      have hnext : nextCommand (.zero :: processHoleArray size (rest.drop n)) = processHoleArray size (rest.drop n) :=
        nextCommand_vars 0 [] (rest.drop n)
      rw [inStep_command_iff rfl (fun rest' => by
        rw [stream_cons, List.append_assoc, hnext]
        exact hhead 0 _), hsplit, hnext]
      constructor
      · rintro ⟨others, hothers, hstep⟩
        rw [List.append_cancel_left hothers]
        exact ⟨rfl, hstep⟩
      · rintro ⟨-, hstep⟩
        exact ⟨_, rfl, hstep⟩
  | cons next p =>
      -- A distance stands where the zero should, and the zero behind it is not read.
      refine ⟨fun hstep => ?_, fun h => absurd h.1 (List.cons_ne_nil _ _)⟩
      obtain ⟨added, hexec⟩ := hstep.head
      have hexec' := hexec []
      obtain ⟨b, l, hbytes⟩ := stream_vars_cons size ((curr :: rest).getD n curr).newStart next p
        (processHoleArray size (dropList size 0 (rest.drop n)))
      rw [nextCommand_vars, stream_cons, hbytes, List.append_nil, List.append_nil, hhead] at hexec'
      have hlen := congrArg (fun r => List.length r.2) (Option.some.inj hexec')
      dsimp only at hlen
      rw [List.length_append, List.length_cons] at hlen
      omega

/-- A list in front. -/
theorem inStep_list {curr : Region} {rest : List Region} (hord : Ordered (curr :: rest)) (hsmall : Small (curr :: rest))
    (hlist : ¬ minIters size < (runOf curr rest).1)
    (ih : InStep size (processHoleArray size (dropList size curr.diff rest)) (adds (dropList size curr.diff rest)) ↔
      Fits size (dropList size curr.diff rest)) :
    InStep size (processHoleArray size (curr :: rest)) (adds (curr :: rest)) ↔ Fits size (curr :: rest) := by
  obtain ⟨hstart, hdiff⟩ := hsmall curr List.mem_cons_self
  have happend := takeList_append_dropList size curr.diff rest
  have hincreasing := takeList_increasing size hord
  have hsmall' : Small (takeList size curr.diff rest) := fun r hr =>
    hsmall r (List.mem_cons_of_mem _ ((takeList_sublist size curr.diff rest).subset hr))
  have hread := fun l => holesLoop_vars size curr.diff
    (processHoleArray size (dropList size curr.diff rest)) l (takeList size curr.diff rest) curr.newStart curr.newStart
    hincreasing hsmall'
  have hright := decoded_iff curr.diff (takeList size curr.diff rest) curr.newStart hincreasing
    (fun r hr => diff_of_mem_takeList hr) hsmall'
  have hsplit : adds (curr :: rest) = ((curr.newStart, curr.diff) :: adds (takeList size curr.diff rest)) ++
      adds (dropList size curr.diff rest) := by
    conv_lhs => rw [← happend]
    rw [← List.cons_append, adds_append]
    rfl
  rw [fits_list_iff hlist, processHoleArray_holes hlist, loop_list, ← ih, ← hright, hsplit]
  rw [inStep_command_iff rfl (fun rest' => by
    rw [stream_cons, List.append_assoc, execute_holes hstart hdiff, hread, nextCommand_vars]), nextCommand_vars]
  constructor
  · rintro ⟨others, hothers, hstep⟩
    obtain ⟨hfirst, rfl⟩ := List.append_inj hothers (by rw [length_decoded, List.length_cons])
    exact ⟨hfirst.symm, hstep⟩
  · rintro ⟨hfirst, hstep⟩
    exact ⟨_, by rw [hfirst], hstep⟩

theorem inStep_iff_fits (size : EnumSize) (n : ℕ) :
    ∀ holes : List Region, holes.length = n → Ordered holes → Small holes → n < 2 ^ 32 →
    (InStep size (processHoleArray size holes) (adds holes) ↔ Fits size holes) := by
  induction n using Nat.strong_induction_on with
  | _ n ih =>
      rintro (_ | ⟨curr, rest⟩) hlen hord hsmall hcount
      · exact ⟨fun _ => .nil, fun _ => .done⟩
      · rw [List.length_cons] at hlen
        have hord' := hord.drop 1
        have hsmall' := hsmall.drop 1
        rw [List.drop_one, List.tail_cons] at hord' hsmall'
        by_cases hrun : minIters size < (runOf curr rest).1
        · refine inStep_run hord hsmall (by omega) hrun (ih _ ?_ _ rfl (hord'.drop _) (hsmall'.drop _) ?_)
          · rw [List.length_drop]
            omega
          · rw [List.length_drop]
            omega
        · have hsub := dropList_sublist size curr.diff rest
          have := hsub.length_le
          exact inStep_list hord hsmall hrun (ih _ (by omega) _ rfl (hord'.sublist hsub)
            (fun r hr => hsmall' r (hsub.subset hr)) (by omega))

namespace HoleArray

theorem ordered (h : HoleArray) : Ordered h.holes := by
  have hne := List.pairwise_map.mp h.distinct
  refine (h.sorted.and hne).imp fun {a b} hab => ?_
  obtain ⟨hlt | ⟨heq, hle⟩, hne⟩ := hab
  · exact .inl hlt
  · exact .inr ⟨heq, lt_of_le_of_ne hle hne⟩

theorem isSmall (h : HoleArray) : Small h.holes := fun r hr => ⟨by have := (h.small r hr).1; omega, (h.small r hr).2⟩

/-- There are fewer holes than offsets. -/
theorem length_lt (h : HoleArray) : h.holes.length < 2 ^ 32 := by
  have hsub : (h.holes.map Region.newStart).toFinset ⊆ Finset.range (2 ^ 32 - 4) := by
    intro p hp
    obtain ⟨r, hr, rfl⟩ := List.mem_map.mp (List.mem_toFinset.mp hp)
    have := (h.small r hr).1
    exact Finset.mem_range.mpr (by omega)
  have hcard := Finset.card_le_card hsub
  rw [List.toFinset_card_of_nodup h.distinct, List.length_map, Finset.card_range] at hcard
  omega

end HoleArray

/-- The commands stay in step and add every hole once if and only if the holes fit. -/
theorem inStep_iff (size : EnumSize) (h : HoleArray) :
    InStep size (processHoleArray size h.holes) (adds h.holes) ↔ Fits size h.holes :=
  inStep_iff_fits size _ h.holes rfl h.ordered h.isSmall h.length_lt

/-- Two holes with one difference, 4 MB apart. -/
def farHoles : HoleArray where
  holes := [⟨0, 1⟩, ⟨4194304, 1⟩]
  sorted := by simp
  distinct := by simp
  small := by simp

theorem not_inStep_farHoles : ¬ ∀ (size : EnumSize) (h : HoleArray),
    InStep size (processHoleArray size h.holes) (adds h.holes) := by
  intro h
  have hfits := (inStep_iff_fits .four 2 farHoles.holes rfl farHoles.ordered farHoles.isSmall (by decide)).mp
    (h .four farHoles)
  obtain _ | ⟨hrun, -, -⟩ | ⟨-, hnear, -⟩ := hfits
  · exact absurd hrun (by decide)
  · have htake : takeList .four 1 [⟨4194304, 1⟩] = [⟨4194304, 1⟩] := by decide
    rw [htake, List.isChain_cons_cons] at hnear
    exact absurd hnear.1 (by decide)

end OpenWatcom.Bdiff
