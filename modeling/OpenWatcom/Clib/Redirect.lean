import OpenWatcom.Clib.DiskIo
import OpenWatcom.Clib.RamBdos

/-! # Redirection on the command line

`__apply_redirection` opens the files of the operands `<name`, `>name` and `>>name`, whose name may be the next
operand, and moves the other operands to the front of `argv`. -/

namespace OpenWatcom.Clib

variable {σ : Type}

/-! ### The code -/

/-- A redirection operator: its direction, how the file is opened, and the name behind it in the same word. -/
structure Redirection where
  isIn : Bool
  mode : OpenMode
  name : List Byte
  deriving DecidableEq, Repr

/-- The operator that a word starts with: `<`, `>>` or `>`. -/
def redirection : List Byte → Option Redirection
  | 0x3C :: name => some ⟨true, ⟨0, false, false, false, false⟩, name⟩
  | 0x3E :: 0x3E :: name => some ⟨false, ⟨1, true, true, false, false⟩, name⟩
  | 0x3E :: name => some ⟨false, ⟨1, false, true, true, false⟩, name⟩
  | _ => none

section

variable (b : Bdos σ)

/-- The end of `redirect_one`: the file is opened, and takes the place of the one before. -/
def redirect (r : Redirection) (st : DiskIo σ) : DiskIo σ :=
  let (fd, st) := sopen b r.name r.mode st
  if fd < 0 then st
  else if r.isIn then
    { (if 0 ≤ st.redirIn then (close b st.redirIn st).2 else st) with redirIn := fd }
  else { (if 0 ≤ st.redirOut then (close b st.redirOut st).2 else st) with redirOut := fd }

/-- `redirect_one`: the number of words that it takes. -/
def redirectOne (a : List Byte) (next : Option (List Byte)) (st : DiskIo σ) : ℕ × DiskIo σ :=
  match redirection a with
  | none => (0, st)
  | some r =>
    if r.name = [] then
      match next with
      | none => (1, st)
      | some name => (2, redirect b { r with name := name } st)
    else (1, redirect b r st)

/-- The loop of `__apply_redirection`; `argv` holds pointers, `none` is NULL. -/
def applyLoop (argc i out : ℕ) (argv : List (Option (List Byte))) (st : DiskIo σ) :
    ℕ × List (Option (List Byte)) × DiskIo σ :=
  if h : i < argc then
    let next := if i + 1 < argc then argv.getD (i + 1) none else none
    let r := redirectOne b ((argv.getD i none).getD []) next st
    if r.1 = 0 then applyLoop argc (i + 1) (out + 1) (argv.set out (argv.getD i none)) r.2
    else applyLoop argc (i + 1 + (r.1 - 1)) out argv r.2
  else (out, argv.set out none, st)
termination_by argc - i

/-- `__apply_redirection`: the new `argc` and `argv`. -/
def applyRedirection (argc : ℕ) (argv : List (Option (List Byte))) (st : DiskIo σ) :
    ℕ × List (Option (List Byte)) × DiskIo σ :=
  applyLoop b argc 1 1 argv st

end

/-! ### Words of a command line -/

/-- The operands that belong to no redirection. -/
def operands : List (List Byte) → List (List Byte)
  | [] => []
  | a :: rest =>
    match redirection a with
    | none => a :: operands rest
    | some r => if r.name = [] then operands (rest.drop 1) else operands rest
termination_by l => l.length
decreasing_by all_goals simp only [List.length_cons, List.length_drop]; omega

/-- The redirections in order, each with the name of its file; an operator at the end has none. -/
def redirections : List (List Byte) → List Redirection
  | [] => []
  | a :: rest =>
    match redirection a with
    | none => redirections rest
    | some r =>
      if r.name = [] then
        (rest.head?.map fun name => { r with name := name }).toList ++ redirections (rest.drop 1)
      else r :: redirections rest
termination_by l => l.length
decreasing_by all_goals simp only [List.length_cons, List.length_drop]; omega

/-- The redirections one after the other. -/
def redirectAll (b : Bdos σ) (rs : List Redirection) (st : DiskIo σ) : DiskIo σ :=
  rs.foldl (fun st r => redirect b r st) st

variable {b : Bdos σ}

section Words

variable {a : List Byte} {rest : List (List Byte)} {r : Redirection} {st : DiskIo σ}

/-! A word that is no redirection, an operator with its name in the next word, and one with its name behind it. -/

theorem operands_word (h : redirection a = none) : operands (a :: rest) = a :: operands rest := by
  rw [operands]
  simp only [h]

theorem operands_apart (h : redirection a = some r) (hname : r.name = []) :
    operands (a :: rest) = operands (rest.drop 1) := by
  rw [operands]
  simp only [h, hname, if_true]

theorem operands_joined (h : redirection a = some r) (hname : r.name ≠ []) :
    operands (a :: rest) = operands rest := by
  rw [operands]
  simp only [h, hname, if_false]

theorem redirections_word (h : redirection a = none) : redirections (a :: rest) = redirections rest := by
  rw [redirections]
  simp only [h]

theorem redirections_apart (h : redirection a = some r) (hname : r.name = []) :
    redirections (a :: rest) =
      (rest.head?.map fun name => { r with name := name }).toList ++ redirections (rest.drop 1) := by
  rw [redirections]
  simp only [h, hname, if_true]

theorem redirections_joined (h : redirection a = some r) (hname : r.name ≠ []) :
    redirections (a :: rest) = r :: redirections rest := by
  rw [redirections]
  simp only [h, hname, if_false]

theorem redirectOne_word (h : redirection a = none) (next : Option (List Byte)) :
    redirectOne b a next st = (0, st) := by
  unfold redirectOne
  rw [h]

theorem redirectOne_last (h : redirection a = some r) (hname : r.name = []) :
    redirectOne b a none st = (1, st) := by
  unfold redirectOne
  simp only [h, hname, if_true]

theorem redirectOne_apart (h : redirection a = some r) (hname : r.name = []) (name : List Byte) :
    redirectOne b a (some name) st = (2, redirect b { r with name := name } st) := by
  unfold redirectOne
  simp only [h, hname, if_true]

theorem redirectOne_joined (h : redirection a = some r) (hname : r.name ≠ []) (next : Option (List Byte)) :
    redirectOne b a next st = (1, redirect b r st) := by
  unfold redirectOne
  simp only [h, hname, if_false]

end Words

/-- One round of the loop at the word `a`, behind `pre`. -/
theorem applyLoop_round (a : List Byte) (rest : List (List Byte)) (pre : List (Option (List Byte))) (out : ℕ)
    (st : DiskIo σ) :
    applyLoop b (pre.length + (a :: rest).length) pre.length out (pre ++ ((a :: rest).map some ++ [none])) st =
      if (redirectOne b a rest.head? st).1 = 0 then
        applyLoop b (pre.length + (a :: rest).length) (pre.length + 1) (out + 1)
          ((pre ++ ((a :: rest).map some ++ [none])).set out (some a)) (redirectOne b a rest.head? st).2
      else
        applyLoop b (pre.length + (a :: rest).length) (pre.length + 1 + ((redirectOne b a rest.head? st).1 - 1)) out
          (pre ++ ((a :: rest).map some ++ [none])) (redirectOne b a rest.head? st).2 := by
  have hhead : (pre ++ ((a :: rest).map some ++ [none])).getD pre.length none = some a := by
    simp [List.getD_eq_getElem?_getD]
  have hnext : (if pre.length + 1 < pre.length + (a :: rest).length
      then (pre ++ ((a :: rest).map some ++ [none])).getD (pre.length + 1) none else none) = rest.head? := by
    cases rest with
    | nil => simp
    | cons name rest => simp [List.getD_eq_getElem?_getD]
  rw [applyLoop, dif_pos (by simp)]
  dsimp only
  rw [hhead, hnext, Option.getD_some]

/-- The loop at the word `i = pre.length`, when `out` words have been kept. -/
theorem applyLoop_argv (rest : List (List Byte)) : ∀ (pre : List (Option (List Byte))) (out : ℕ) (st : DiskIo σ),
    out ≤ pre.length → ∃ argv,
      applyLoop b (pre.length + rest.length) pre.length out (pre ++ (rest.map some ++ [none])) st =
          (out + (operands rest).length, argv, redirectAll b (redirections rest) st) ∧
        argv.take (out + (operands rest).length + 1) = pre.take out ++ ((operands rest).map some ++ [none]) := by
  induction rest using operands.induct with
  | case1 =>
      intro pre out st hout
      rw [applyLoop, dif_neg (by simp), operands, redirections]
      refine ⟨_, rfl, ?_⟩
      have hlt : out < (pre ++ [none]).length := by
        rw [List.length_append, List.length_singleton]
        omega
      simp only [List.map_nil, List.nil_append, List.length_nil, Nat.add_zero]
      rw [List.take_succ_eq_append_getElem (by rwa [List.length_set]), List.getElem_set_self,
        List.take_set_of_le le_rfl, List.take_append_of_le_length hout]
  | case2 a rest hop ih =>
      intro pre out st hout
      have hset : (pre ++ ((a :: rest).map some ++ [none])).set out (some a) =
          (pre ++ [some a]).set out (some a) ++ (rest.map some ++ [none]) := by
        rw [← List.set_append_left _ _ (by simp; omega)]
        simp
      rw [applyLoop_round, redirectOne_word hop, if_pos rfl, hset, operands_word hop, redirections_word hop]
      obtain ⟨argv, hloop, htake⟩ := ih ((pre ++ [some a]).set out (some a)) (out + 1) st
        (by rw [List.length_set, List.length_append]; simpa using hout)
      have hlen : ((pre ++ [some a]).set out (some a)).length = pre.length + 1 := by simp
      have hcount : pre.length + (a :: rest).length = pre.length + 1 + rest.length := by
        rw [List.length_cons]
        omega
      rw [hlen] at hloop
      rw [hcount]
      refine ⟨argv, hloop.trans ?_, ?_⟩
      · rw [List.length_cons]
        congr 1
        omega
      · have hlen' : out + (a :: operands rest).length + 1 = out + 1 + (operands rest).length + 1 := by
          rw [List.length_cons]
          omega
        rw [hlen', htake, List.take_succ_eq_append_getElem (by simp; omega), List.getElem_set_self,
          List.take_set_of_le le_rfl, List.take_append_of_le_length hout]
        simp
  | case3 a rest r hop hname ih =>
      intro pre out st hout
      rw [applyLoop_round, operands_apart hop hname, redirections_apart hop hname]
      cases rest with
      | nil =>
          obtain ⟨argv, hloop, htake⟩ := ih (pre ++ [some a]) out st (by rw [List.length_append]; omega)
          rw [List.take_append_of_le_length hout] at htake
          rw [List.head?_nil, redirectOne_last hop hname, if_neg Nat.one_ne_zero]
          refine ⟨argv, ?_, htake⟩
          simpa using hloop
      | cons name rest =>
          obtain ⟨argv, hloop, htake⟩ := ih (pre ++ [some a, some name]) out
            (redirect b { r with name := name } st) (by rw [List.length_append]; omega)
          rw [List.take_append_of_le_length hout] at htake
          rw [List.head?_cons, redirectOne_apart hop hname, if_neg (Nat.succ_ne_zero 1)]
          refine ⟨argv, ?_, htake⟩
          have hcount : pre.length + (a :: name :: rest).length = pre.length + 2 + rest.length := by
            simp only [List.length_cons]
            omega
          rw [hcount]
          simpa [redirectAll] using hloop
  | case4 a rest r hop hname ih =>
      intro pre out st hout
      obtain ⟨argv, hloop, htake⟩ := ih (pre ++ [some a]) out (redirect b r st)
        (by rw [List.length_append]; omega)
      rw [List.take_append_of_le_length hout] at htake
      rw [applyLoop_round, redirectOne_joined hop hname, if_neg Nat.one_ne_zero, operands_joined hop hname,
        redirections_joined hop hname]
      refine ⟨argv, ?_, htake⟩
      have hcount : pre.length + (a :: rest).length = pre.length + 1 + rest.length := by
        rw [List.length_cons]
        omega
      rw [hcount]
      simpa [redirectAll] using hloop

/-! ### Slots -/

/-- What work on the slot `i` leaves alone, whatever the BDOS answers. -/
structure InSlot (i : Fin 16) (st st' : DiskIo σ) : Prop where
  others : ∀ j, j ≠ i → st'.dfiles j = st.dfiles j
  used : (st'.dfiles i).used = (st.dfiles i).used
  redirIn : st'.redirIn = st.redirIn
  redirOut : st'.redirOut = st.redirOut

theorem InSlot.refl (i : Fin 16) (st : DiskIo σ) : InSlot i st st := ⟨fun _ _ => rfl, rfl, rfl, rfl⟩

theorem InSlot.trans {i : Fin 16} {st st₁ st₂ : DiskIo σ} (h : InSlot i st st₁) (h' : InSlot i st₁ st₂) :
    InSlot i st st₂ where
  others j hj := (h'.others j hj).trans (h.others j hj)
  used := h'.used.trans h.used
  redirIn := h'.redirIn.trans h.redirIn
  redirOut := h'.redirOut.trans h.redirOut

/-- The marks of the buffer belong to no slot. -/
theorem InSlot.uncached {i : Fin 16} {st st' : DiskIo σ} (h : InSlot i st st') (fp : Option (Fin 16)) :
    InSlot i st { st' with cacheFp := fp } := ⟨h.others, h.used, h.redirIn, h.redirOut⟩

theorem inSlot_setFile (i : Fin 16) (st : DiskIo σ) (f : DFile → DFile)
    (hused : (f (st.dfiles i)).used = (st.dfiles i).used) : InSlot i st (st.setFile i f) where
  others _ hj := Function.update_of_ne hj _ _
  used := by
    unfold DiskIo.setFile
    dsimp only
    rw [Function.update_self, hused]
  redirIn := rfl
  redirOut := rfl

theorem inSlot_bdosFile (fn : BdosFn) (i : Fin 16) (st : DiskIo σ) : InSlot i st (bdosFile b fn i st).2 :=
  let h := inSlot_setFile i st (fun fp => { fp with fcb := (b.call fn (st.dfiles i).fcb st.dma st.os).fcb }) rfl
  ⟨h.others, h.used, rfl, rfl⟩

theorem inSlot_loadRecord (i : Fin 16) (rec : Int) (st : DiskIo σ) : InSlot i st (loadRecord b i rec st).2 := by
  have hset := inSlot_setFile i st (fun fp => { fp with fcb := fcbSetRecord fp.fcb rec }) rfl
  have hcall := hset.trans (inSlot_bdosFile (b := b) .readrand i _)
  unfold loadRecord
  split_ifs with hhit
  · exact InSlot.refl i st
  · dsimp only
    split_ifs
    all_goals exact ⟨hcall.others, hcall.used, hcall.redirIn, hcall.redirOut⟩

theorem inSlot_diskLen (i : Fin 16) (st : DiskIo σ) : InSlot i st (diskLen b i st).2 := by
  have hsize := inSlot_bdosFile (b := b) .filesize i st
  unfold diskLen textEof
  split_ifs with htext
  · dsimp only
    split_ifs
    · exact hsize
    · exact hsize.trans (inSlot_loadRecord i _ _)
    · exact hsize.trans (inSlot_loadRecord i _ _)
  · exact hsize

/-- The handle of a slot. -/
def handleOf (i : Fin 16) : Int := 3 + (i.val : Int)

theorem handleOf_inj {i j : Fin 16} (h : handleOf i = handleOf j) : i = j := by
  unfold handleOf at h
  exact Fin.ext (by omega)

/-- `_sopen` fails and leaves the slots as they are, or takes a free slot. -/
structure Opens (st : DiskIo σ) (fd : Int) (st' : DiskIo σ) : Prop where
  redirIn : st'.redirIn = st.redirIn
  redirOut : st'.redirOut = st.redirOut
  slot : fd = -1 ∧ (∀ j, (st'.dfiles j).used = (st.dfiles j).used) ∧
      (∀ j, (st.dfiles j).used = true → st'.dfiles j = st.dfiles j) ∨
    ∃ i, fd = handleOf i ∧ (st.dfiles i).used = false ∧ (st'.dfiles i).used = true ∧
      ∀ j, j ≠ i → st'.dfiles j = st.dfiles j

theorem InSlot.failed {i : Fin 16} {st st' : DiskIo σ} (h : InSlot i st st') (hfree : (st.dfiles i).used = false) :
    Opens st (-1) st' := by
  refine ⟨h.redirIn, h.redirOut, .inl ⟨rfl, fun j => ?_, fun j hj => ?_⟩⟩
  · by_cases hji : j = i
    · rw [hji, h.used]
    · rw [h.others j hji]
  · apply h.others
    rintro rfl
    rw [hfree] at hj
    cases hj

theorem InSlot.done {i : Fin 16} {st st' : DiskIo σ} (h : InSlot i st st') (hfree : (st.dfiles i).used = false)
    (mode : OpenMode) : Opens st (sopenDone i mode st').1 (sopenDone i mode st').2 := by
  refine ⟨h.redirIn, h.redirOut, .inr ⟨i, rfl, hfree, ?_, fun j hj => ?_⟩⟩
  · unfold sopenDone DiskIo.setFile
    dsimp only
    rw [Function.update_self]
  · exact (Function.update_of_ne hj _ _).trans (h.others j hj)

theorem sopen_opens (name : List Byte) (mode : OpenMode) (st : DiskIo σ) :
    Opens st (sopen b name mode st).1 (sopen b name mode st).2 := by
  unfold sopen
  cases hslot : freeSlot st with
  | none => exact ⟨rfl, rfl, .inl ⟨rfl, fun _ => rfl, fun _ _ => rfl⟩⟩
  | some i =>
      have hfree : (st.dfiles i).used = false := by
        have := List.find?_some hslot
        simpa using this
      dsimp only
      split_ifs with hcon
      · refine ⟨rfl, rfl, .inr ⟨i, rfl, hfree, ?_, fun j hj => Function.update_of_ne hj _ _⟩⟩
        unfold DiskIo.setFile
        dsimp only
        rw [Function.update_self]
        rfl
      · unfold sopenFile
        dsimp only
        have hname := inSlot_setFile i st (fun fp => { fp with fcb := (nameToFcb name).2 }) rfl
        have hnew := inSlot_setFile i st (newFile b (nameToFcb name).2 mode) rfl
        have hcall := fun fn => hnew.trans (inSlot_bdosFile (b := b) fn i _)
        have hcall₂ := fun fn fn' => (hcall fn).trans (inSlot_bdosFile (b := b) fn' i _)
        split_ifs
        · exact hname.failed hfree
        · exact (hcall₂ .delete .make).failed hfree
        · exact (hcall₂ .delete .make).done hfree mode
        · exact (hcall .openFile).failed hfree
        · exact (hcall₂ .openFile .make).failed hfree
        · exact (hcall₂ .openFile .make).done hfree mode
        · have hcount := (hcall .openFile).trans (inSlot_setFile i _
            (fun fp => { fp with openLrbc := fp.fcb 32, fcb := Function.update fp.fcb 32 0 }) rfl)
          have hlen := hcount.trans (inSlot_diskLen (b := b) i _)
          exact (hlen.trans (inSlot_setFile i _ _ rfl)).done hfree mode

theorem inSlot_storeCount (i : Fin 16) (lrbc : Byte) (st : DiskIo σ) : InSlot i st (storeCount b i lrbc st) := by
  unfold storeCount
  have hset := inSlot_setFile i st
    (fun fp => { fp with fcb := Function.update (Function.update fp.fcb 6 (fp.fcb 6 ||| 0x80)) 32 lrbc }) rfl
  exact (hset.trans (inSlot_bdosFile (b := b) .attrib i _)).trans (inSlot_setFile i _ _ rfl)

/-- `__close` frees the slot of the handle. -/
theorem close_slot {i : Fin 16} {st : DiskIo σ} (hused : (st.dfiles i).used = true) :
    (∀ j, j ≠ i → (close b (handleOf i) st).2.dfiles j = st.dfiles j) ∧
      ((close b (handleOf i) st).2.dfiles i).used = false ∧
      (close b (handleOf i) st).2.redirIn = st.redirIn ∧ (close b (handleOf i) st).2.redirOut = st.redirOut := by
  have hfd : fdToFile st (handleOf i) = some i := fdToFile_slot hused
  have hfree : ∀ st₁ : DiskIo σ, InSlot i st st₁ →
      (∀ j, j ≠ i → (st₁.setFile i fun fp => { fp with used := false }).dfiles j = st.dfiles j) ∧
        ((st₁.setFile i fun fp => { fp with used := false }).dfiles i).used = false ∧
        (st₁.setFile i fun fp => { fp with used := false }).redirIn = st.redirIn ∧
        (st₁.setFile i fun fp => { fp with used := false }).redirOut = st.redirOut := by
    intro st₁ h
    refine ⟨fun j hj => (Function.update_of_ne hj _ _).trans (h.others j hj), ?_, h.redirIn, h.redirOut⟩
    unfold DiskIo.setFile
    dsimp only
    rw [Function.update_self]
  have hclose := inSlot_bdosFile (b := b) .closeFile i st
  have hstore := fun lrbc => hclose.trans (inSlot_storeCount (b := b) i lrbc _)
  unfold close
  rw [if_neg (by unfold handleOf; omega), hfd]
  dsimp only
  by_cases hcon : (st.dfiles i).isCon = true
  · rw [if_pos hcon]
    exact hfree st (InSlot.refl i st)
  · rw [if_neg hcon]
    dsimp only
    apply hfree
    split_ifs
    · exact (hstore _).uncached none
    · exact hstore _
    · exact hclose.uncached none
    · exact hclose

/-! ### Standard input and output -/

/-- The handle that standard input or output is redirected to. -/
def DiskIo.std (st : DiskIo σ) (isIn : Bool) : Int := if isIn then st.redirIn else st.redirOut

/-- A redirected handle is open, and the two are different. -/
structure Latched (st : DiskIo σ) : Prop where
  opened : ∀ isIn, st.std isIn < 0 ∨ ∃ i, st.std isIn = handleOf i ∧ (st.dfiles i).used = true
  apart : st.std true < 0 ∨ st.std true ≠ st.std false

/-- The handle and the state that the last redirection of a direction gave among those that could be opened. -/
def latest (b : Bdos σ) (isIn : Bool) : List Redirection → DiskIo σ → Option (Int × DiskIo σ)
  | [], _ => none
  | r :: rs, st => (latest b isIn rs (redirect b r st)).or
      (if r.isIn = isIn ∧ 0 ≤ (sopen b r.name r.mode st).1 then some (sopen b r.name r.mode st) else none)

theorem Latched.ne {st : DiskIo σ} (h : Latched st) {d e : Bool} (hde : d ≠ e) {k : Fin 16}
    (hk : st.std d = handleOf k) : st.std e ≠ handleOf k := by
  have hpos : 0 ≤ handleOf k := by
    unfold handleOf
    omega
  intro heq
  have hapart := h.apart
  cases d <;> cases e <;> first | exact hde rfl | omega

/-- What one redirection does. -/
inductive Redirects (b : Bdos σ) (r : Redirection) (st st' : DiskIo σ) : Prop
  | failed (fd : (sopen b r.name r.mode st).1 < 0) (std : ∀ isIn, st'.std isIn = st.std isIn)
      (used : ∀ j, (st'.dfiles j).used = (st.dfiles j).used)
      (files : ∀ j, (st.dfiles j).used = true → st'.dfiles j = st.dfiles j)
  | latched (i : Fin 16) (fd : (sopen b r.name r.mode st).1 = handleOf i) (free : (st.dfiles i).used = false)
      (opened : (st'.dfiles i).used = true) (std : st'.std r.isIn = handleOf i)
      (other : ∀ isIn, isIn ≠ r.isIn → st'.std isIn = st.std isIn)
      (file : st'.dfiles i = (sopen b r.name r.mode st).2.dfiles i)
      (closed : ∀ j, handleOf j = st.std r.isIn → (st'.dfiles j).used = false)
      (files : ∀ j, j ≠ i → handleOf j ≠ st.std r.isIn → st'.dfiles j = st.dfiles j)

theorem handleOf_nonneg (i : Fin 16) : 0 ≤ handleOf i := by
  unfold handleOf
  omega

/-- `redirect` after the file was opened: the handle is put in the place of the one before, which is closed. -/
theorem replace_std {isIn : Bool} {st : DiskIo σ} {fd : Int}
    (h : st.std isIn < 0 ∨ ∃ k, st.std isIn = handleOf k ∧ (st.dfiles k).used = true) :
    ∃ st', (if isIn then
          { (if 0 ≤ st.redirIn then (close b st.redirIn st).2 else st) with redirIn := fd }
        else { (if 0 ≤ st.redirOut then (close b st.redirOut st).2 else st) with redirOut := fd }) = st' ∧
      st'.std isIn = fd ∧ (∀ d, d ≠ isIn → st'.std d = st.std d) ∧
      (∀ j, handleOf j = st.std isIn → (st'.dfiles j).used = false) ∧
      ∀ j, handleOf j ≠ st.std isIn → st'.dfiles j = st.dfiles j := by
  obtain ⟨st₁, hst₁, hin, hout, hclosed, hkeep⟩ : ∃ st₁,
      (if 0 ≤ st.std isIn then (close b (st.std isIn) st).2 else st) = st₁ ∧
        st₁.redirIn = st.redirIn ∧ st₁.redirOut = st.redirOut ∧
        (∀ j, handleOf j = st.std isIn → (st₁.dfiles j).used = false) ∧
        ∀ j, handleOf j ≠ st.std isIn → st₁.dfiles j = st.dfiles j := by
    obtain hneg | ⟨k, hk, hused⟩ := h
    · refine ⟨st, if_neg (by omega), rfl, rfl, fun j hj => ?_, fun _ _ => rfl⟩
      have := handleOf_nonneg j
      omega
    · obtain ⟨hothers, hfree, hin, hout⟩ := close_slot (b := b) hused
      refine ⟨_, if_pos (by rw [hk]; exact handleOf_nonneg k), ?_⟩
      rw [hk]
      refine ⟨hin, hout, fun j hj => ?_, fun j hj => hothers j fun hjk => hj (by rw [hjk])⟩
      rw [handleOf_inj hj]
      exact hfree
  cases isIn with
  | true =>
      change (if 0 ≤ st.redirIn then (close b st.redirIn st).2 else st) = st₁ at hst₁
      rw [if_pos rfl, hst₁]
      refine ⟨_, rfl, rfl, fun d hd => ?_, hclosed, hkeep⟩
      obtain rfl : d = false := by simpa using hd
      exact hout
  | false =>
      change (if 0 ≤ st.redirOut then (close b st.redirOut st).2 else st) = st₁ at hst₁
      rw [if_neg Bool.false_ne_true, hst₁]
      refine ⟨_, rfl, rfl, fun d hd => ?_, hclosed, hkeep⟩
      obtain rfl : d = true := by simpa using hd
      exact hin

theorem redirect_redirects {r : Redirection} {st : DiskIo σ} (h : Latched st) :
    Redirects b r st (redirect b r st) := by
  have hopen := sopen_opens (b := b) r.name r.mode st
  rcases hcall : sopen b r.name r.mode st with ⟨fd, st₁⟩
  have hstd : ∀ isIn, st₁.std isIn = st.std isIn := by
    rw [hcall] at hopen
    intro isIn
    unfold DiskIo.std
    rw [hopen.redirIn, hopen.redirOut]
  have hslot := hopen.slot
  rw [hcall] at hslot
  obtain ⟨hfd, hused, hfiles⟩ | ⟨i, hfd, hfree, hopened, hothers⟩ := hslot
  · dsimp only at hfd hused hfiles
    have hst : redirect b r st = st₁ := by
      unfold redirect
      rw [hcall, hfd]
      rfl
    rw [hst]
    exact .failed (by rw [hcall, hfd]; exact Int.negSucc_lt_zero 0) hstd hused hfiles
  · dsimp only at hfd hopened hothers
    have hold : st₁.std r.isIn < 0 ∨ ∃ k, st₁.std r.isIn = handleOf k ∧ (st₁.dfiles k).used = true := by
      rw [hstd]
      refine (h.opened r.isIn).imp_right ?_
      rintro ⟨k, hk, hused⟩
      refine ⟨k, hk, ?_⟩
      rw [hothers k fun hki => by rw [hki, hfree] at hused; cases hused]
      exact hused
    obtain ⟨st', hst', hnew, hother, hclosed, hkeep⟩ := replace_std (b := b) hold
    rw [hstd] at hclosed hkeep
    have hst : redirect b r st = st' := by
      unfold redirect
      rw [hcall]
      dsimp only
      rw [if_neg (by have := handleOf_nonneg i; omega), hst']
    have hi : handleOf i ≠ st.std r.isIn := by
      intro heq
      obtain hneg | ⟨k, hk, hused⟩ := h.opened r.isIn
      · have := handleOf_nonneg i
        omega
      · rw [handleOf_inj (heq.trans hk), hused] at hfree
        cases hfree
    rw [hst]
    refine .latched i (by rw [hcall, hfd]) hfree (by rw [hkeep i hi, hopened]) (hnew.trans hfd)
      (fun d hd => (hother d hd).trans (hstd d)) (by rw [hkeep i hi, hcall]) hclosed fun j hj hne => ?_
    rw [hkeep j hne, hothers j hj]

/-- A slot that is open and that neither standard handle is redirected to. -/
def Other (st : DiskIo σ) (j : Fin 16) : Prop := (st.dfiles j).used = true ∧ ∀ isIn, st.std isIn ≠ handleOf j

theorem Redirects.keeps {r : Redirection} {st st' : DiskIo σ} (h : Latched st) (hr : Redirects b r st st') :
    Latched st' ∧ (∀ j, Other st' j ↔ Other st j) ∧ ∀ j, Other st j → st'.dfiles j = st.dfiles j := by
  cases hr with
  | failed fd std used files =>
      refine ⟨⟨fun isIn => ?_, ?_⟩, fun j => ?_, fun j hj => files j hj.1⟩
      · rw [std]
        refine (h.opened isIn).imp_right ?_
        rintro ⟨i, hi, hused⟩
        exact ⟨i, hi, (used i).trans hused⟩
      · rw [std, std]
        exact h.apart
      · unfold Other
        simp only [used, std]
  | latched i fd free opened std other file closed files =>
      have hused : ∀ j, (st.dfiles j).used = true → j ≠ i := by
        rintro j hj rfl
        rw [free] at hj
        cases hj
      have hsame : ∀ j, Other st j → st'.dfiles j = st.dfiles j := fun j hj =>
        files j (hused j hj.1) fun heq => hj.2 r.isIn heq.symm
      refine ⟨⟨fun isIn => ?_, ?_⟩, fun j => ⟨fun hj => ?_, fun hj => ?_⟩, hsame⟩
      · by_cases hd : isIn = r.isIn
        · rw [hd]
          exact .inr ⟨i, std, opened⟩
        · rw [other isIn hd]
          refine (h.opened isIn).imp_right ?_
          rintro ⟨k, hk, hkused⟩
          refine ⟨k, hk, ?_⟩
          rw [files k (hused k hkused) (Ne.symm (h.ne hd hk))]
          exact hkused
      · have hne : ∀ d, d ≠ r.isIn → st'.std d < 0 ∨ st'.std d ≠ st'.std r.isIn := by
          intro d hd
          rw [other d hd, std]
          refine (h.opened d).imp_right ?_
          rintro ⟨k, hk, hkused⟩ heq
          exact hused k hkused (handleOf_inj (hk.symm.trans heq))
        have hpos := handleOf_nonneg i
        cases hdir : r.isIn with
        | true =>
            have hfalse := hne false (by rw [hdir]; decide)
            rw [hdir] at hfalse std
            omega
        | false =>
            have htrue := hne true (by rw [hdir]; decide)
            rw [hdir] at htrue
            exact htrue
      · have hji : j ≠ i := fun hji => hj.2 r.isIn (by rw [hji]; exact std)
        have hstd : handleOf j ≠ st.std r.isIn := by
          intro heq
          have hfree := closed j heq
          rw [hj.1] at hfree
          cases hfree
        refine ⟨by rw [← files j hji hstd]; exact hj.1, fun d => ?_⟩
        by_cases hd : d = r.isIn
        · rw [hd]
          exact Ne.symm hstd
        · rw [← other d hd]
          exact hj.2 d
      · refine ⟨by rw [hsame j hj]; exact hj.1, fun d => ?_⟩
        by_cases hd : d = r.isIn
        · rw [hd, std]
          exact fun heq => hused j hj.1 (handleOf_inj heq).symm
        · rw [other d hd]
          exact hj.2 d

/-- Standard input or output is what the last redirection of its direction gave, if any could be opened, and what it
was before otherwise; its file is as it was then. -/
def StdRight (b : Bdos σ) (rs : List Redirection) (st st' : DiskIo σ) (isIn : Bool) : Prop :=
  match latest b isIn rs st with
  | none => st'.std isIn = st.std isIn ∧ ∀ i, st.std isIn = handleOf i → st'.dfiles i = st.dfiles i
  | some (fd, opened) => st'.std isIn = fd ∧ ∃ i, fd = handleOf i ∧ st'.dfiles i = opened.dfiles i

/-- A run of redirections. -/
theorem redirectAll_latched (rs : List Redirection) : ∀ {st : DiskIo σ}, Latched st →
    Latched (redirectAll b rs st) ∧ (∀ j, Other (redirectAll b rs st) j ↔ Other st j) ∧
      (∀ j, Other st j → (redirectAll b rs st).dfiles j = st.dfiles j) ∧
      ∀ isIn, StdRight b rs st (redirectAll b rs st) isIn := by
  induction rs with
  | nil => exact fun h => ⟨h, fun _ => Iff.rfl, fun _ _ => rfl, fun _ => ⟨rfl, fun _ _ => rfl⟩⟩
  | cons r rs ih =>
      intro st h
      have hr := redirect_redirects (b := b) (r := r) h
      obtain ⟨hlatched, hother, hsame⟩ := hr.keeps h
      obtain ⟨hlatched', hother', hsame', hstd⟩ := ih hlatched
      have hrun : redirectAll b (r :: rs) st = redirectAll b rs (redirect b r st) := rfl
      rw [hrun]
      refine ⟨hlatched', fun j => (hother' j).trans (hother j), fun j hj => ?_, fun isIn => ?_⟩
      · rw [hsame' j ((hother j).mpr hj), hsame j hj]
      · have hright := hstd isIn
        unfold StdRight at hright ⊢
        rw [latest]
        cases hlast : latest b isIn rs (redirect b r st) with
        | some x =>
            rw [hlast] at hright
            exact hright
        | none =>
            rw [hlast] at hright
            obtain ⟨hkeep, hfile⟩ := hright
            rw [Option.none_or]
            have hopened : ∀ k, st.std isIn = handleOf k → (st.dfiles k).used = true := by
              intro k hk
              obtain hneg | ⟨l, hl, hused⟩ := h.opened isIn
              · have := handleOf_nonneg k
                omega
              · rwa [handleOf_inj (hk.symm.trans hl)]
            cases hr with
            | failed fd std used files =>
                rw [if_neg fun hok => by omega]
                refine ⟨hkeep.trans (std isIn), fun k hk => ?_⟩
                rw [hfile k ((std isIn).trans hk), files k (hopened k hk)]
            | latched i fd free opened std other file closed files =>
                by_cases hdir : r.isIn = isIn
                · rw [hdir] at std
                  generalize sopen b r.name r.mode st = o at fd file ⊢
                  obtain ⟨fd', st₁⟩ := o
                  rw [if_pos ⟨hdir, by rw [fd]; exact handleOf_nonneg i⟩]
                  refine ⟨?_, i, fd, ?_⟩
                  · rw [hkeep, std]
                    exact fd.symm
                  · rw [hfile i std, file]
                · rw [if_neg fun hok => hdir hok.1]
                  refine ⟨hkeep.trans (other isIn (Ne.symm hdir)), fun k hk => ?_⟩
                  have hki : k ≠ i := by
                    rintro rfl
                    rw [hopened k hk] at free
                    cases free
                  rw [hfile k ((other isIn (Ne.symm hdir)).trans hk),
                    files k hki (Ne.symm (h.ne (Ne.symm hdir) hk))]

/-! ### The command line -/

/-- What `__apply_redirection` leaves behind: standard input and output, and the slots that are open.  Those that
were open before are as they were, and no other is left open than those of standard input and output. -/
structure Redirected (b : Bdos σ) (rs : List Redirection) (st st' : DiskIo σ) : Prop where
  std : ∀ isIn, match latest b isIn rs st with
    | none => st'.std isIn < 0
    | some (fd, opened) => st'.std isIn = fd ∧ ∃ i, fd = handleOf i ∧ (st'.dfiles i).used = true ∧
        st'.dfiles i = opened.dfiles i
  slots : ∀ j, (st'.dfiles j).used = true ↔
    (st.dfiles j).used = true ∨ ∃ isIn, st'.std isIn = handleOf j
  others : ∀ j, (st.dfiles j).used = true → st'.dfiles j = st.dfiles j

/-- For every command line, and whatever the BDOS answers, so for every outcome of the opens. -/
theorem applyRedirection_correct (b : Bdos σ) (program : List Byte) (args : List (List Byte)) {st : DiskIo σ}
    (hin : st.redirIn < 0) (hout : st.redirOut < 0) : ∃ argc argv st',
      applyRedirection b (args.length + 1) ((program :: args).map some ++ [none]) st = (argc, argv, st') ∧
        argc = (program :: operands args).length ∧
        argv.take (argc + 1) = (program :: operands args).map some ++ [none] ∧
        Redirected b (redirections args) st st' := by
  obtain ⟨argv, hloop, htake⟩ := applyLoop_argv (b := b) args [some program] 1 st le_rfl
  have hstd : ∀ isIn, st.std isIn < 0 := by
    intro isIn
    cases isIn
    · exact hout
    · exact hin
  have hlatched : Latched st := ⟨fun isIn => .inl (hstd isIn), .inl (hstd true)⟩
  have hused : ∀ j, Other st j ↔ (st.dfiles j).used = true := by
    refine fun j => ⟨And.left, fun hj => ⟨hj, fun isIn heq => ?_⟩⟩
    have := hstd isIn
    have := handleOf_nonneg j
    omega
  obtain ⟨hlatched', hother, hsame, hright⟩ := redirectAll_latched (b := b) (redirections args) hlatched
  generalize redirectAll b (redirections args) st = st' at *
  refine ⟨1 + (operands args).length, argv, st', ?_, ?_, ?_, ⟨fun isIn => ?_, fun j => ?_, fun j hj => ?_⟩⟩
  · rw [applyRedirection, ← hloop, Nat.add_comm]
    rfl
  · rw [List.length_cons, Nat.add_comm]
  · rw [htake]
    rfl
  · have hopen := hright isIn
    unfold StdRight at hopen
    cases hlast : latest b isIn (redirections args) st with
    | none =>
        rw [hlast] at hopen
        dsimp only at hopen ⊢
        rw [hopen.1]
        exact hstd isIn
    | some x =>
        rw [hlast] at hopen
        obtain ⟨hfd, i, hi, hfile⟩ := hopen
        refine ⟨hfd, i, hi, ?_, hfile⟩
        obtain hneg | ⟨k, hk, hopened⟩ := hlatched'.opened isIn
        · have := handleOf_nonneg i
          omega
        · rwa [handleOf_inj (hi.symm.trans (hfd.symm.trans hk))]
  · constructor
    · intro hj
      by_cases hlatch : ∃ isIn, st'.std isIn = handleOf j
      · exact .inr hlatch
      · refine .inl ((hused j).mp ((hother j).mp ⟨hj, fun isIn heq => hlatch ⟨isIn, heq⟩⟩))
    · rintro (hj | ⟨isIn, heq⟩)
      · exact ((hother j).mpr ((hused j).mpr hj)).1
      · obtain hneg | ⟨k, hk, hopened⟩ := hlatched'.opened isIn
        · have := handleOf_nonneg j
          omega
        · rwa [handleOf_inj (heq.symm.trans hk)]
  · exact hsame j ((hused j).mpr hj)

/-- The command line `P <A X > B <C`, on a disk without files: A and C cannot be opened. -/
theorem applyRedirection_words : ∃ argc argv st',
    applyRedirection ramBdos ([[0x3C, 0x41], [0x58], [0x3E], [0x42], [0x3C, 0x43]].length + 1)
        (([0x50] :: [[0x3C, 0x41], [0x58], [0x3E], [0x42], [0x3C, 0x43]]).map some ++ [none])
        (DiskIo.start []) = (argc, argv, st') ∧
      argc = ([0x50] :: operands [[0x3C, 0x41], [0x58], [0x3E], [0x42], [0x3C, 0x43]]).length ∧
      argv.take (argc + 1) =
        ([0x50] :: operands [[0x3C, 0x41], [0x58], [0x3E], [0x42], [0x3C, 0x43]]).map some ++ [none] ∧
      Redirected ramBdos (redirections [[0x3C, 0x41], [0x58], [0x3E], [0x42], [0x3C, 0x43]])
        (DiskIo.start []) st' :=
  applyRedirection_correct ramBdos [0x50] [[0x3C, 0x41], [0x58], [0x3E], [0x42], [0x3C, 0x43]]
    (by decide) (by decide)

end OpenWatcom.Clib
