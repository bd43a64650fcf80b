import OpenWatcom.Wpack.MatchForest

/-! # The match trees while a file is packed

`DoEncode` fills the look-ahead, inserts the first positions, and then moves the window over the input. A log of the
calls of `InsertNode` and `DeleteNode` is kept, with the arrays after each. -/

namespace OpenWatcom.Wpack

open PointerTrees BinaryTree

/-! ### The code -/

/-- A call of `InsertNode` or `DeleteNode`, and the arrays after it. -/
inductive Call
  | insert (r : ℕ) (m : Tables)
  | delete (p : ℕ) (m : Tables)

def Call.tables : Call → Tables
  | .insert _ m => m
  | .delete _ m => m

/-- The variables of `DoEncode`, what is not read yet, and the calls so far, the last one first. -/
structure Encoder where
  mem : Tables
  input : List UInt8
  num : ℤ
  s : ℕ
  r : ℕ
  log : List Call

/-- `InitTree`. -/
def initTree (m : Tables) : Tables :=
  { m with
    son := fun d q => if d = true ∧ strbufSize + 1 ≤ q ∧ q ≤ strbufSize + 256 then nilNode else m.son d q
    dad := fun q => if q < strbufSize then nilNode else m.dad q }

/-- The blanks before the window, and the first bytes in the look-ahead. -/
def loadText (m : Tables) (bytes : List UInt8) : Tables :=
  { m with
    text := fun i =>
      if i < strbufSize - laheadSize then 32 else bytes.getD (i - (strbufSize - laheadSize)) (m.text i) }

/-- A byte comes into the window, and past its end if it is one of the first. -/
def writeText (m : Tables) (s : ℕ) (c : UInt8) : Tables :=
  { m with text := fun i => if i = s ∨ (s < laheadSize - 1 ∧ i = s + strbufSize) then c else m.text i }

namespace Encoder

def insert (e : Encoder) (p : ℕ) : Option Encoder :=
  (insertNode e.mem p).map fun m => { e with mem := m, log := .insert p m :: e.log }

def delete (e : Encoder) : Option Encoder :=
  (deleteNode e.mem.toLinks e.s).map fun l =>
    { e with mem := { e.mem with toLinks := l }, log := .delete e.s { e.mem with toLinks := l } :: e.log }

def advance (e : Encoder) : Encoder := { e with s := (e.s + 1) % strbufSize, r := (e.r + 1) % strbufSize }

end Encoder

def insertAll : List ℕ → Encoder → Option Encoder
  | [], e => some e
  | p :: ps, e => (e.insert p).bind (insertAll ps)

/-- The first loop of a round, and how many of its steps are left at the end of the input. -/
def feedLoop : ℕ → Encoder → Option (ℕ × Encoder)
  | 0, e => some (0, e)
  | k + 1, e =>
    match e.input with
    | [] => some (k + 1, e)
    | c :: cs =>
      e.delete.bind fun e =>
        let e := Encoder.advance { e with mem := writeText e.mem e.s c, input := cs }
        (e.insert e.r).bind (feedLoop k)

/-- The second loop of a round. -/
def drainLoop : ℕ → Encoder → Option Encoder
  | 0, e => some e
  | k + 1, e =>
    e.delete.bind fun e =>
      let e := { e.advance with num := e.num - 1 }
      (if e.num ≠ 0 then e.insert e.r else some e).bind (drainLoop k)

/-- How many bytes a round packs, and the `match_length` of it. -/
def roundLength (e : Encoder) : ℕ :=
  let length := if e.num < e.mem.matchLength then e.num.toNat else e.mem.matchLength
  if length ≤ threshold then 1 else length

/-- A round of `DoEncode`, and whether there is another one. The last read fails if `problem`. -/
def round (problem : Bool) (e : Encoder) : Option (Bool × Encoder) :=
  (feedLoop (roundLength e) { e with mem := { e.mem with matchLength := roundLength e } }).bind fun fed =>
    if problem ∧ fed.1 ≠ 0 then some (false, fed.2)
    else (drainLoop fed.1 fed.2).map fun e => (decide (0 < e.num), e)

/-- At most `n` rounds. -/
def rounds (problem : Bool) : ℕ → Encoder → Option Encoder
  | 0, e => some e
  | n + 1, e => (round problem e).bind fun next => if next.1 then rounds problem n next.2 else some next.2

/-- `DoEncode` before the first call. -/
def start (m : Tables) (input : List UInt8) : Encoder where
  mem := loadText (initTree m) (input.take laheadSize)
  input := input.drop laheadSize
  num := (input.take laheadSize).length
  s := 0
  r := strbufSize - laheadSize
  log := []

/-- The positions that are inserted first. -/
def firstNodes : List ℕ :=
  (List.range laheadSize).map (fun i => strbufSize - laheadSize - (i + 1)) ++ [strbufSize - laheadSize]

/-- The first pass of `DoEncode`, for at most `n` rounds, with whatever is in the arrays. -/
def doEncode (problem : Bool) (m : Tables) (input : List UInt8) (n : ℕ) : Option Encoder :=
  if problem ∧ input.length < laheadSize then some (start m input)
  else (insertAll firstNodes (start m input)).bind (rounds problem n)

/-! ### The positions in the trees -/

/-- The positions that were inserted and not deleted. -/
def window : List Call → List ℕ
  | [] => []
  | .insert r _ :: cs => r :: window cs
  | .delete p _ :: cs => (window cs).filter (· ≠ p)

/-- Those of them that were not replaced: a position is, when one with the same bytes is inserted. -/
def kept : List Call → List ℕ
  | [] => []
  | .insert r m :: cs => replaced m.text r (kept cs)
  | .delete p _ :: cs => (kept cs).filter (· ≠ p)

/-- After a call the arrays hold the trees of the kept positions, and the match is a longest one of those before it. -/
structure CallOk (c : Call) (cs : List Call) : Prop where
  tree : TreeOk c.tables (kept (c :: cs))
  found : ∀ r m, c = .insert r m → MatchOk m r (kept cs)

/-- A state of the arrays after calls that were right. -/
structure Good (m : Tables) (log : List Call) : Prop where
  tree : TreeOk m (kept log)
  calls : ∀ c cs, c :: cs <:+ log → CallOk c cs

/-- What holds between the calls: the kept positions are less than `far` past `s`. -/
structure Inv (far : ℕ) (m : Tables) (log : List Call) (s r : ℕ) : Prop extends Good m log where
  s_lt : s < strbufSize
  r_eq : r = (s + (strbufSize - laheadSize)) % strbufSize
  near : ∀ q ∈ kept log, (q + strbufSize - s) % strbufSize < far

section Calls

variable {m m' : Tables} {log : List Call} {s r far : ℕ}

theorem Good.cons {c : Call} (h : Good m log) (hc : CallOk c log) : Good c.tables (c :: log) := by
  refine ⟨hc.tree, fun c' cs hsuf => ?_⟩
  obtain heq | hsuf := List.suffix_cons_iff.mp hsuf
  · obtain ⟨rfl, rfl⟩ := List.cons.inj heq
    exact hc
  · exact h.calls c' cs hsuf

theorem Good.lt (h : Good m log) {q : ℕ} (hq : q ∈ kept log) : q < strbufSize := by
  obtain ⟨T, hT⟩ := h.tree
  exact hT.lt hq

theorem Good.insert {p : ℕ} (h : Good m log) (hp : p < strbufSize) (hnew : p ∉ kept log) :
    ∃ m', insertNode m p = some m' ∧ m'.text = m.text ∧ Good m' (.insert p m' :: log) := by
  obtain ⟨T, hT⟩ := h.tree
  obtain ⟨m', hrun, htext, htree, hmatch⟩ := insertNode_spec hT hp hnew
  refine ⟨m', hrun, htext, h.cons (c := .insert p m') ⟨?_, fun r m hc => ?_⟩⟩
  · rw [kept, htext]
    exact htree
  · obtain ⟨rfl, rfl⟩ := Call.insert.inj hc
    exact hmatch

theorem Good.delete {p : ℕ} (h : Good m log) (hp : p < strbufSize) :
    ∃ l, deleteNode m.toLinks p = some l ∧
      Good { m with toLinks := l } (.delete p { m with toLinks := l } :: log) := by
  obtain ⟨T, hT⟩ := h.tree
  obtain ⟨l, hrun, htree⟩ := deleteNode_spec hT hp
  exact ⟨l, hrun, h.cons (c := .delete p { m with toLinks := l }) ⟨htree, fun r m hc => nomatch hc⟩⟩

theorem Good.of_text (h : Good m log) (hlinks : m'.toLinks = m.toLinks)
    (htext : ∀ q ∈ kept log, ∀ j < laheadSize, m'.text (q + j) = m.text (q + j)) : Good m' log :=
  ⟨h.tree.of_text hlinks htext, h.calls⟩

theorem Inv.mono {far' : ℕ} (h : Inv far m log s r) (hfar : far ≤ far') : Inv far' m log s r :=
  ⟨h.toGood, h.s_lt, h.r_eq, fun q hq => (h.near q hq).trans_le hfar⟩

/-- The position before the look-ahead is inserted. -/
theorem Inv.insert (h : Inv (strbufSize - laheadSize) m log s r) :
    ∃ m', insertNode m r = some m' ∧ Inv (strbufSize - laheadSize + 1) m' (.insert r m' :: log) s r := by
  have hs := h.s_lt
  have hr := h.r_eq
  unfold strbufSize at hs hr
  unfold laheadSize at hr
  have hoff : (r + strbufSize - s) % strbufSize = strbufSize - laheadSize := by
    unfold strbufSize laheadSize
    omega
  have hlt : r < strbufSize := by
    unfold strbufSize
    omega
  obtain ⟨m', hrun, -, hgood⟩ := h.toGood.insert hlt fun hq => (hoff ▸ h.near r hq).ne rfl
  refine ⟨m', hrun, hgood, h.s_lt, h.r_eq, fun q hq => ?_⟩
  obtain rfl | ⟨hq, -⟩ := mem_replaced.mp hq
  · rw [hoff]
    exact Nat.lt_succ_self _
  · exact (h.near q hq).trans (Nat.lt_succ_self _)

/-- The window moves: the last position is deleted. -/
theorem Inv.delete (h : Inv (strbufSize - laheadSize + 1) m log s r) :
    ∃ l, deleteNode m.toLinks s = some l ∧
      Inv (strbufSize - laheadSize) { m with toLinks := l } (.delete s { m with toLinks := l } :: log)
        ((s + 1) % strbufSize) ((r + 1) % strbufSize) := by
  have hs := h.s_lt
  have hr := h.r_eq
  obtain ⟨l, hrun, hgood⟩ := h.toGood.delete h.s_lt
  refine ⟨l, hrun, hgood, Nat.mod_lt _ (by decide), ?_, fun q hq => ?_⟩
  · unfold strbufSize laheadSize at *
    omega
  · have hlt := hgood.lt hq
    rw [kept, List.mem_filter, decide_eq_true_iff] at hq
    have hnear := h.near q hq.1
    have hne := hq.2
    unfold strbufSize laheadSize at *
    omega

/-- The byte that comes in is at none of the kept positions, and not among the bytes after one. -/
theorem Inv.writeText {c : UInt8} (h : Inv (strbufSize - laheadSize) m log ((s + 1) % strbufSize) r)
    (hs : s < strbufSize) : Inv (strbufSize - laheadSize) (writeText m s c) log ((s + 1) % strbufSize) r := by
  refine ⟨h.toGood.of_text rfl fun q hq j hj => if_neg ?_, h.s_lt, h.r_eq, h.near⟩
  have hlt := h.toGood.lt hq
  have hnear := h.near q hq
  unfold strbufSize laheadSize at *
  omega

/-! ### The loops -/

/-- What holds of an encoder between the steps of its loops. -/
def Encoder.Ok (e : Encoder) : Prop := Inv (strbufSize - laheadSize + 1) e.mem e.log e.s e.r

theorem feedLoop_ok (k : ℕ) : ∀ e : Encoder, e.Ok → ∃ rest e', feedLoop k e = some (rest, e') ∧ e'.Ok := by
  induction k with
  | zero => exact fun e h => ⟨0, e, rfl, h⟩
  | succ k ih =>
      intro e h
      unfold feedLoop
      cases hin : e.input with
      | nil => exact ⟨k + 1, e, rfl, h⟩
      | cons c cs =>
          obtain ⟨l, hdelete, h'⟩ := Inv.delete h
          obtain ⟨m', hinsert, h''⟩ := (h'.writeText (c := c) h.s_lt).insert
          have hrun := ih { e with
            mem := m', input := cs, s := (e.s + 1) % strbufSize, r := (e.r + 1) % strbufSize
            log := .insert ((e.r + 1) % strbufSize) m' :: .delete e.s { e.mem with toLinks := l } :: e.log } h''
          simpa [Encoder.delete, Encoder.insert, Encoder.advance, hdelete, hinsert] using hrun

theorem drainLoop_ok (k : ℕ) : ∀ e : Encoder, e.Ok → ∃ e', drainLoop k e = some e' ∧ e'.Ok := by
  induction k with
  | zero => exact fun e h => ⟨e, rfl, h⟩
  | succ k ih =>
      intro e h
      unfold drainLoop
      obtain ⟨l, hdelete, h'⟩ := Inv.delete h
      by_cases hnum : e.num - 1 = 0
      · have hrun := ih { e with
          mem := { e.mem with toLinks := l }, num := e.num - 1, s := (e.s + 1) % strbufSize,
          r := (e.r + 1) % strbufSize, log := .delete e.s { e.mem with toLinks := l } :: e.log }
          (h'.mono (Nat.le_succ _))
        simpa [Encoder.delete, Encoder.advance, hdelete, hnum] using hrun
      · obtain ⟨m', hinsert, h''⟩ := h'.insert
        have hrun := ih { e with
          mem := m', num := e.num - 1, s := (e.s + 1) % strbufSize, r := (e.r + 1) % strbufSize
          log := .insert ((e.r + 1) % strbufSize) m' :: .delete e.s { e.mem with toLinks := l } :: e.log } h''
        simpa [Encoder.delete, Encoder.insert, Encoder.advance, hdelete, hinsert, hnum] using hrun

theorem round_ok (problem : Bool) (e : Encoder) (h : e.Ok) :
    ∃ more e', round problem e = some (more, e') ∧ e'.Ok := by
  have h₀ : Encoder.Ok { e with mem := { e.mem with matchLength := roundLength e } } :=
    ⟨h.toGood.of_text rfl fun _ _ _ _ => rfl, h.s_lt, h.r_eq, h.near⟩
  obtain ⟨rest, e₁, hfeed, h₁⟩ := feedLoop_ok (roundLength e) _ h₀
  unfold round
  rw [hfeed, Option.bind_some]
  split_ifs
  · exact ⟨false, e₁, rfl, h₁⟩
  · obtain ⟨e₂, hdrain, h₂⟩ := drainLoop_ok rest e₁ h₁
    exact ⟨_, e₂, by rw [hdrain, Option.map_some], h₂⟩

theorem rounds_ok (problem : Bool) (n : ℕ) : ∀ e : Encoder, e.Ok → ∃ e', rounds problem n e = some e' ∧ e'.Ok := by
  induction n with
  | zero => exact fun e h => ⟨e, rfl, h⟩
  | succ n ih =>
      intro e h
      obtain ⟨more, e', hround, h'⟩ := round_ok problem e h
      unfold rounds
      rw [hround, Option.bind_some]
      cases more with
      | false => exact ⟨e', rfl, h'⟩
      | true => exact ih e' h'

/-- The arrays after `InitTree`. -/
theorem treeOk_start (m : Tables) (input : List UInt8) : TreeOk (start m input).mem [] := by
  refine ⟨fun _ => .nil, fun c => ?_, fun _ => .nil, fun c q hq => (nomatch hq), fun q => ?_, fun q hq _ => ?_⟩
  · have hc := c.toNat_lt
    have hroot : strbufSize + 1 ≤ rootOf c ∧ rootOf c ≤ strbufSize + 256 := by
      unfold rootOf
      omega
    exact if_pos ⟨rfl, hroot⟩
  · exact ⟨fun hq => (nomatch hq), fun ⟨_, hq⟩ => nomatch hq⟩
  · exact if_pos hq

theorem good_start (m : Tables) (input : List UInt8) : Good (start m input).mem (start m input).log :=
  ⟨treeOk_start m input, fun _ _ hsuf => nomatch List.suffix_nil.mp hsuf⟩

theorem insertAll_ok (ps : List ℕ) : ∀ e : Encoder, Good e.mem e.log → ps.Nodup →
    (∀ p ∈ ps, p < strbufSize ∧ p ∉ kept e.log) → ∃ m' log', insertAll ps e = some { e with mem := m', log := log' } ∧
      Good m' log' ∧ (∀ q ∈ kept log', q ∈ kept e.log ∨ q ∈ ps) ∧ e.log <:+ log' := by
  induction ps with
  | nil => exact fun e h _ _ => ⟨e.mem, e.log, rfl, h, fun q hq => .inl hq, List.suffix_rfl⟩
  | cons p ps ih =>
      intro e h hnodup hps
      obtain ⟨hp, hnodup⟩ := List.nodup_cons.mp hnodup
      obtain ⟨hlt, hnew⟩ := hps p List.mem_cons_self
      obtain ⟨m, hrun, -, hgood⟩ := h.insert hlt hnew
      obtain ⟨m', log', hall, hgood', hkept, hsuf⟩ := ih { e with mem := m, log := .insert p m :: e.log } hgood hnodup
        fun q hq => ⟨(hps q (List.mem_cons_of_mem _ hq)).1, fun hin => by
          obtain rfl | ⟨hin, -⟩ := mem_replaced.mp hin
          · exact hp hq
          · exact (hps q (List.mem_cons_of_mem _ hq)).2 hin⟩
      refine ⟨m', log', ?_, hgood', fun q hq => ?_, (List.suffix_cons _ _).trans hsuf⟩
      · rw [insertAll, Encoder.insert, hrun, Option.map_some, Option.bind_some, hall]
      · obtain hin | hin := hkept q hq
        · obtain rfl | ⟨hin, -⟩ := mem_replaced.mp hin
          · exact .inr List.mem_cons_self
          · exact .inl hin
        · exact .inr (List.mem_cons_of_mem _ hin)

/-- The encoder before the first round. -/
theorem insertAll_start (m : Tables) (input : List UInt8) :
    ∃ e, insertAll firstNodes (start m input) = some e ∧ e.Ok := by
  have hfirst : ∀ p ∈ firstNodes, p ≤ strbufSize - laheadSize := by decide
  obtain ⟨m', log', hrun, hgood, hkept, -⟩ := insertAll_ok firstNodes (start m input)
    (good_start m input) (by decide) fun p hp => ⟨(hfirst p hp).trans_lt (by decide), fun hq => nomatch hq⟩
  have hr : strbufSize - laheadSize = (0 + (strbufSize - laheadSize)) % strbufSize := by decide
  refine ⟨_, hrun, hgood, ?_, hr, fun q hq => ?_⟩
  · exact Nat.zero_lt_succ _
  · obtain hq | hq := hkept q hq
    · exact nomatch hq
    · have hle := hfirst q hq
      show (q + strbufSize - 0) % strbufSize < _
      unfold strbufSize laheadSize at *
      omega

/-- In every run, after every call of `InsertNode` and `DeleteNode`, the arrays hold for each first byte a search tree
of the positions that were inserted and neither deleted nor replaced, and the match that is reported is a longest
one. -/
theorem doEncode_callOk (problem : Bool) (m : Tables) (input : List UInt8) (n : ℕ) :
    ∃ e, doEncode problem m input n = some e ∧ ∀ c cs, c :: cs <:+ e.log → CallOk c cs := by
  unfold doEncode
  split_ifs
  · exact ⟨_, rfl, (good_start m input).calls⟩
  · obtain ⟨e, hfirst, h⟩ := insertAll_start m input
    obtain ⟨e', hrounds, h'⟩ := rounds_ok problem n e h
    exact ⟨e', by rw [hfirst, Option.bind_some, hrounds], h'.toGood.calls⟩

/-- With 60 blanks, the second call replaces the position of the first one, which is in the window still. -/
theorem not_tree_window_blanks :
    ¬ ∀ e, doEncode false ⟨⟨fun _ _ => 0, fun _ => 0⟩, fun _ => 0, 0, 0⟩ (List.replicate 60 32) 0 = some e →
      ∀ c cs, c :: cs <:+ e.log → TreeOk c.tables (window (c :: cs)) := by
  intro hall
  set e₀ := start ⟨⟨fun _ _ => 0, fun _ => 0⟩, fun _ => 0, 0, 0⟩ (List.replicate 60 32) with he₀
  have hagree : Agree e₀.mem.text 4034 4035 laheadSize := by decide +kernel
  have hgood : Good e₀.mem e₀.log := good_start _ _
  obtain ⟨m₁, hrun₁, htext₁, hgood₁⟩ := hgood.insert (p := 4035) (by decide) fun h => nomatch h
  obtain ⟨m₂, hrun₂, htext₂, hgood₂⟩ := hgood₁.insert (p := 4034) (by decide) fun h => by
    obtain h | ⟨h, -⟩ := mem_replaced.mp h
    · exact absurd h (by decide)
    · exact nomatch h
  have hkept : ∀ q ∈ kept [.insert 4034 m₂, .insert 4035 m₁], q = 4034 := fun q hq => by
    obtain rfl | ⟨hq, hnot⟩ := mem_replaced.mp hq
    · rfl
    · obtain rfl | ⟨hq, -⟩ := mem_replaced.mp hq
      · exact absurd (by rwa [htext₂, htext₁]) hnot
      · exact nomatch hq
  obtain ⟨m', log', hrun, -, -, hsuf⟩ := insertAll_ok (firstNodes.drop 2)
    { e₀ with mem := m₂, log := [.insert 4034 m₂, .insert 4035 m₁] } hgood₂ (by decide) fun p hp =>
      ⟨(by decide : ∀ p ∈ firstNodes.drop 2, p < strbufSize) p hp, fun hq => by
        rw [hkept p hq] at hp
        exact absurd hp (by decide)⟩
  have hfirst : firstNodes = 4035 :: 4034 :: firstNodes.drop 2 := by decide
  have htree := hall { e₀ with mem := m', log := log' } (by
    rw [doEncode, if_neg (by decide), hfirst, insertAll, ← he₀, Encoder.insert, hrun₁, Option.map_some,
      Option.bind_some, insertAll, Encoder.insert, hrun₂, Option.map_some, Option.bind_some]
    exact (congrArg (Option.bind · _) hrun).trans rfl) _ _ hsuf
  have hin : 4035 ∈ kept [.insert 4034 m₂, .insert 4035 m₁] :=
    htree.subset hgood₂.tree (List.mem_cons_of_mem _ List.mem_cons_self)
  exact absurd (hkept 4035 hin) (by decide)

end Calls

end OpenWatcom.Wpack
