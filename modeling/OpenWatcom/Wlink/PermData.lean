import OpenWatcom.Wlink.Carve

/-! # Saving the linker's structures

`permdata.c`: for an incremental link the modules, segments, symbols, imports and exports are written with
indices for the links between them, free elements with a mark in their first word, and read back into
new carvers.  The parts of a structure that are no links, names among them, are not shown here, but for the
flags that say which fields are links. -/

namespace OpenWatcom.Wlink.PermData

/-! ### Structures -/

/-- The carvers: `CarveModEntry`, `CarveSegData`, `CarveSymbol`, `CarveDLLInfo` and `CarveExportInfo`. -/
inductive CarveKind where
  | modEntry | segData | symbol | dllInfo | exportInfo
  deriving DecidableEq, Repr

/-- `mod_entry`: `u.next`, `publist`, `segs` and `flags_mod`. -/
structure ModEntry where
  next : ℕ
  publist : ℕ
  segs : ℕ
  flags : UInt32
  deriving DecidableEq, Repr

/-- `segdata`. -/
structure SegData where
  next : ℕ
  nextByMod : ℕ
  isfree : Bool
  deriving DecidableEq, Repr

/-- `symbol`: its links, the flags `info`, and the words of the unions `p`, `u` and `e`. -/
structure Symbol where
  hash : ℕ
  nextByPublist : ℕ
  next : ℕ
  info : UInt32
  mod : ℕ
  p : ℕ
  u : ℕ
  e : ℕ
  deriving DecidableEq, Repr

/-- `dll_sym_info`: the union `m`, which is the module's name and then its place in the string table. -/
structure DllSymInfo where
  m : ℕ
  isfree : Bool
  deriving DecidableEq, Repr

/-- `entry_export`. -/
structure EntryExport where
  next : ℕ
  isfree : Bool
  deriving DecidableEq, Repr

def CarveKind.Rec : CarveKind → Type
  | .modEntry => ModEntry
  | .segData => SegData
  | .symbol => Symbol
  | .dllInfo => DllSymInfo
  | .exportInfo => EntryExport

def modIsFree : UInt32 := 0x80000000
def modClearOnInc : UInt32 := 0x00010000
def symIsFree : UInt32 := 0x10000000
def symClearOnInc : UInt32 := 0x010404F0
def symTypeMask : UInt32 := 0xF
def symComdat : UInt32 := 2
def symAlias : UInt32 := 4
def symImported : UInt32 := 5
def symExported : UInt32 := 0x00008000
def symIsAltdef : UInt32 := 0x00100000

/-- `IS_SYM_ALIAS`, `IS_SYM_IMPORTED` and `IS_SYM_COMDAT`. -/
def isSymAlias (info : UInt32) : Bool := info &&& symTypeMask = symAlias
def isSymImported (info : UInt32) : Bool := info &&& symTypeMask = symImported
def isSymComdat (info : UInt32) : Bool := info &&& symTypeMask = symComdat

/-- What the format says: `MK_OS2 | MK_WIN_NE | MK_PE`, and these with `MK_WIN_VXD`. -/
structure IncFormat where
  imports : Bool
  exports : Bool
  exports_of_imports : imports = true → exports = true

/-- The carvers that are saved: `CarveDLLInfo` and `CarveExportInfo` only for some formats. -/
def CarveKind.saved (fmt : IncFormat) : CarveKind → Bool
  | .dllInfo | .exportInfo => fmt.exports
  | _ => true

/-- The place of string `i` in the string table: behind a null character come the strings, with a null
character each, the first of them the name of the executable file. -/
def strOffs (len : ℕ → ℕ) (i : ℕ) : ℕ := 1 + startOf (fun j => len j + 1) i

/-! ### Writing -/

/-- The mark of a free element in its first 32 bits. -/
def markWord (word : ℕ) : ℕ := word - word % 2 ^ 32 + carveInvalidIndex

section prep

variable (fmt : IncFormat) (len : ℕ → ℕ) (index : CarveKind → ℕ → ℕ)

/-- `PrepModEntry`. -/
def prepModEntry (mod : ModEntry) : ModEntry :=
  if mod.flags &&& modIsFree ≠ 0 then { mod with next := markWord mod.next }
  else
    { next := index .modEntry mod.next
      publist := index .symbol mod.publist
      segs := index .segData mod.segs
      flags := mod.flags &&& ~~~modClearOnInc }

/-- `PrepSegData`. -/
def prepSegData (sdata : SegData) : SegData :=
  if sdata.isfree then { sdata with next := markWord sdata.next }
  else
    { sdata with
      next := index .segData sdata.next
      nextByMod := index .segData sdata.nextByMod }

/-- The part of `PrepSymbol` for the unions `p` and `u`, by the flags of the symbol. -/
def prepUnions (info : UInt32) (p u : ℕ) : ℕ × ℕ :=
  if isSymAlias info then (p, u)
  else if isSymImported info then (if fmt.imports then index .dllInfo p else p, u)
  else if info &&& symIsAltdef = 0 || isSymComdat info then (index .segData p, index .symbol u)
  else (p, u)

/-- The part of `PrepSymbol` for the union `e`. -/
def prepDef (info : UInt32) (e : ℕ) : ℕ :=
  if info &&& symExported ≠ 0 then if fmt.exports then index .exportInfo e else e
  else if e ≠ 0 then index .symbol e
  else e

/-- `PrepSymbol`. -/
def prepSymbol (sym : Symbol) : Symbol :=
  if sym.info &&& symIsFree ≠ 0 then { sym with hash := markWord sym.hash }
  else
    { hash := index .symbol sym.hash
      next := index .symbol sym.next
      nextByPublist := index .symbol sym.nextByPublist
      info := sym.info
      mod := index .modEntry sym.mod
      p := (prepUnions fmt index sym.info sym.p sym.u).1
      u := (prepUnions fmt index sym.info sym.p sym.u).2
      e := prepDef fmt index sym.info sym.e }

/-- `WriteDLLInfo` and `WriteExportInfo`; for a free element they write the mark alone. -/
def writeDllInfo (dll : DllSymInfo) : DllSymInfo :=
  if dll.isfree then { dll with m := carveInvalidIndex } else { dll with m := strOffs len dll.m }

def writeExportInfo (exp : EntryExport) : EntryExport :=
  if exp.isfree then { exp with next := carveInvalidIndex }
  else { exp with next := index .exportInfo exp.next }

def CarveKind.prep : (k : CarveKind) → k.Rec → k.Rec
  | .modEntry => prepModEntry index
  | .segData => prepSegData index
  | .symbol => prepSymbol fmt index
  | .dllInfo => writeDllInfo len
  | .exportInfo => writeExportInfo index

end prep

/-- `MarkModEntry`, `MarkSegData`, `MarkSymbol`, `MarkDLLInfo` and `MarkExportInfo`. -/
def CarveKind.mark : (k : CarveKind) → k.Rec → k.Rec
  | .modEntry => fun mod : ModEntry => { mod with flags := mod.flags ||| modIsFree }
  | .segData => fun sdata : SegData => { sdata with isfree := true }
  | .symbol => fun sym : Symbol => { sym with info := sym.info ||| symIsFree }
  | .dllInfo => fun dll : DllSymInfo => { dll with isfree := true }
  | .exportInfo => fun exp : EntryExport => { exp with isfree := true }

/-- The element has its mark. -/
def CarveKind.isFree : (k : CarveKind) → k.Rec → Bool
  | .modEntry => fun mod : ModEntry => mod.flags &&& modIsFree ≠ 0
  | .segData => fun sdata : SegData => sdata.isfree
  | .symbol => fun sym : Symbol => sym.info &&& symIsFree ≠ 0
  | .dllInfo => fun dll : DllSymInfo => dll.isfree
  | .exportInfo => fun exp : EntryExport => exp.isfree

/-- The first word of an element. -/
def CarveKind.word : (k : CarveKind) → k.Rec → ℕ
  | .modEntry => ModEntry.next
  | .segData => SegData.next
  | .symbol => Symbol.hash
  | .dllInfo => DllSymInfo.m
  | .exportInfo => EntryExport.next

/-- A carver with the contents of its elements. -/
structure Carved (k : CarveKind) where
  carver : Carver
  mem : ℕ → k.Rec

/-- The elements in the order of the blocks, as they are written after the free ones have been
marked. -/
def Carved.dump {k : CarveKind} (fmt : IncFormat) (len : ℕ → ℕ) (index : CarveKind → ℕ → ℕ)
    (c : Carved k) : List k.Rec :=
  c.carver.walk.map fun elm =>
    k.prep fmt len index (if elm ∈ c.carver.freeList then k.mark (c.mem elm) else c.mem elm)

/-! ### Reading -/

section rebuild

variable (fmt : IncFormat) (map : CarveKind → ℕ → Option ℕ)

/-- `RebuildModEntry` for an element that is not free. -/
def rebuildModEntry (mod : ModEntry) : Option ModEntry := do
  let next ← map .modEntry mod.next
  let publist ← map .symbol mod.publist
  let segs ← map .segData mod.segs
  return { mod with next := next, publist := publist, segs := segs }

/-- `RebuildSegData`. -/
def rebuildSegData (sdata : SegData) : Option SegData := do
  let next ← map .segData sdata.next
  let nextByMod ← map .segData sdata.nextByMod
  return { sdata with next := next, nextByMod := nextByMod }

/-- The part of `RebuildSymbol` for the unions `p` and `u`. -/
def rebuildUnions (info : UInt32) (p u : ℕ) : Option (ℕ × ℕ) :=
  if isSymAlias info then return (p, u)
  else if isSymImported info then
    if fmt.imports then do
      let p ← map .dllInfo p
      return (p, u)
    else return (p, u)
  else if info &&& symIsAltdef = 0 || isSymComdat info then do
    let p ← map .segData p
    let u ← map .symbol u
    return (p, u)
  else return (p, u)

/-- The part of `RebuildSymbol` for the union `e`. -/
def rebuildDef (info : UInt32) (e : ℕ) : Option ℕ :=
  if info &&& symExported ≠ 0 then if fmt.exports then map .exportInfo e else return e
  else if e ≠ 0 then map .symbol e
  else return e

/-- `RebuildSymbol`. -/
def rebuildSymbol (sym : Symbol) : Option Symbol := do
  let hash ← map .symbol sym.hash
  let next ← map .symbol sym.next
  let nextByPublist ← map .symbol sym.nextByPublist
  let info := sym.info &&& ~~~symClearOnInc
  let mod ← map .modEntry sym.mod
  let unions ← rebuildUnions fmt map info sym.p sym.u
  let e ← rebuildDef fmt map info sym.e
  return {
    hash := hash
    next := next
    nextByPublist := nextByPublist
    info := info
    mod := mod
    p := unions.1
    u := unions.2
    e := e }

/-- `RebuildExportInfo`. -/
def rebuildExportInfo (exp : EntryExport) : Option EntryExport := do
  let next ← map .exportInfo exp.next
  return { exp with next := next }

def CarveKind.rebuild : (k : CarveKind) → k.Rec → Option k.Rec
  | .modEntry => rebuildModEntry map
  | .segData => rebuildSegData map
  | .symbol => rebuildSymbol fmt map
  | .dllInfo => fun dll => some dll
  | .exportInfo => rebuildExportInfo map

/-- One element is read: it goes to the free list if it has the mark. -/
def readElm {k : CarveKind} (st : Carver × List (ℕ × Option k.Rec)) (r : ℕ × k.Rec) :
    Carver × List (ℕ × Option k.Rec) :=
  if k.word r.2 % 2 ^ 32 = carveInvalidIndex then (st.1.insertFree r.1, st.2)
  else (st.1, st.2 ++ [(r.1, k.rebuild fmt map r.2)])

/-- `ReadBlockInfo` for the blocks and the walk over all elements: the carver with its free list, and the
elements that are not free. -/
def readElms {k : CarveKind} (c : Carver) (recs : List k.Rec) : Carver × List (ℕ × Option k.Rec) :=
  (c.walk.zip recs).foldl (readElm fmt map) (c, [])

end rebuild

/-! ### Links -/

section links

variable (fmt : IncFormat)

/-- The links in the unions of a symbol, and those of an element, each with the carver that it leads to. -/
def unionLinks (info : UInt32) (p u : ℕ) : List (CarveKind × ℕ) :=
  if isSymAlias info then []
  else if isSymImported info then if fmt.imports then [(.dllInfo, p)] else []
  else if info &&& symIsAltdef = 0 || isSymComdat info then [(.segData, p), (.symbol, u)]
  else []

def defLinks (info : UInt32) (e : ℕ) : List (CarveKind × ℕ) :=
  if info &&& symExported ≠ 0 then if fmt.exports then [(.exportInfo, e)] else []
  else [(.symbol, e)]

def ModEntry.links (mod : ModEntry) : List (CarveKind × ℕ) :=
  [(.modEntry, mod.next), (.symbol, mod.publist), (.segData, mod.segs)]

def SegData.links (sdata : SegData) : List (CarveKind × ℕ) :=
  [(.segData, sdata.next), (.segData, sdata.nextByMod)]

def Symbol.links (sym : Symbol) : List (CarveKind × ℕ) :=
  [(.symbol, sym.hash), (.symbol, sym.next), (.symbol, sym.nextByPublist), (.modEntry, sym.mod)] ++
    unionLinks fmt sym.info sym.p sym.u ++ defLinks fmt sym.info sym.e

def EntryExport.links (exp : EntryExport) : List (CarveKind × ℕ) := [(.exportInfo, exp.next)]

def CarveKind.links : (k : CarveKind) → k.Rec → List (CarveKind × ℕ)
  | .modEntry => ModEntry.links
  | .segData => SegData.links
  | .symbol => Symbol.links fmt
  | .dllInfo => fun _ => []
  | .exportInfo => EntryExport.links

variable (len : ℕ → ℕ) (f : CarveKind → ℕ → ℕ)

/-- An element with `f` applied to its links.  The flags that belong to one link only are cleared, and
the name of a module is its place in the string table. -/
def ModEntry.mapLinks (mod : ModEntry) : ModEntry where
  next := f .modEntry mod.next
  publist := f .symbol mod.publist
  segs := f .segData mod.segs
  flags := mod.flags &&& ~~~modClearOnInc

def SegData.mapLinks (sdata : SegData) : SegData :=
  { sdata with next := f .segData sdata.next, nextByMod := f .segData sdata.nextByMod }

def mapUnions (info : UInt32) (p u : ℕ) : ℕ × ℕ :=
  if isSymAlias info then (p, u)
  else if isSymImported info then (if fmt.imports then f .dllInfo p else p, u)
  else if info &&& symIsAltdef = 0 || isSymComdat info then (f .segData p, f .symbol u)
  else (p, u)

def mapDef (info : UInt32) (e : ℕ) : ℕ :=
  if info &&& symExported ≠ 0 then if fmt.exports then f .exportInfo e else e else f .symbol e

def Symbol.mapLinks (sym : Symbol) : Symbol where
  hash := f .symbol sym.hash
  next := f .symbol sym.next
  nextByPublist := f .symbol sym.nextByPublist
  info := sym.info &&& ~~~symClearOnInc
  mod := f .modEntry sym.mod
  p := (mapUnions fmt f sym.info sym.p sym.u).1
  u := (mapUnions fmt f sym.info sym.p sym.u).2
  e := mapDef fmt f sym.info sym.e

def EntryExport.mapLinks (exp : EntryExport) : EntryExport :=
  { exp with next := f .exportInfo exp.next }

def CarveKind.mapLinks : (k : CarveKind) → k.Rec → k.Rec
  | .modEntry => ModEntry.mapLinks f
  | .segData => SegData.mapLinks f
  | .symbol => Symbol.mapLinks fmt f
  | .dllInfo => fun dll : DllSymInfo => { dll with m := strOffs len dll.m }
  | .exportInfo => EntryExport.mapLinks f

variable {fmt len f} {index : CarveKind → ℕ → ℕ} {map : CarveKind → ℕ → Option ℕ}

theorem rebuildModEntry_iff {mod : ModEntry} (h : ¬ mod.flags &&& modIsFree ≠ 0) :
    rebuildModEntry map (prepModEntry index mod) = some (mod.mapLinks f) ↔
      ∀ l ∈ mod.links, map l.1 (index l.1 l.2) = some (f l.1 l.2) := by
  rw [prepModEntry, if_neg h]
  simp only [rebuildModEntry, ModEntry.mapLinks, ModEntry.links, Option.bind_eq_bind,
    Option.bind_eq_some_iff, Option.pure_def, Option.some.injEq, ModEntry.mk.injEq, List.forall_mem_cons,
    List.not_mem_nil, IsEmpty.forall_iff, implies_true, and_true]
  constructor
  · rintro ⟨a, ha, b, hb, c, hc, rfl, rfl, rfl⟩
    exact ⟨ha, hb, hc⟩
  · rintro ⟨ha, hb, hc⟩
    exact ⟨_, ha, _, hb, _, hc, rfl, rfl, rfl⟩

theorem rebuildSegData_iff {sdata : SegData} (h : ¬ sdata.isfree = true) :
    rebuildSegData map (prepSegData index sdata) = some (sdata.mapLinks f) ↔
      ∀ l ∈ sdata.links, map l.1 (index l.1 l.2) = some (f l.1 l.2) := by
  rw [prepSegData, if_neg h]
  simp only [rebuildSegData, SegData.mapLinks, SegData.links, Option.bind_eq_bind,
    Option.bind_eq_some_iff, Option.pure_def, Option.some.injEq, SegData.mk.injEq, List.forall_mem_cons,
    List.not_mem_nil, IsEmpty.forall_iff, implies_true, and_true]
  constructor
  · rintro ⟨a, ha, b, hb, rfl, rfl⟩
    exact ⟨ha, hb⟩
  · rintro ⟨ha, hb⟩
    exact ⟨_, ha, _, hb, rfl, rfl⟩

theorem rebuildExportInfo_iff {exp : EntryExport} (h : ¬ exp.isfree = true) :
    rebuildExportInfo map (writeExportInfo index exp) = some (exp.mapLinks f) ↔
      ∀ l ∈ exp.links, map l.1 (index l.1 l.2) = some (f l.1 l.2) := by
  rw [writeExportInfo, if_neg h]
  simp only [rebuildExportInfo, EntryExport.mapLinks, EntryExport.links, Option.bind_eq_bind,
    Option.bind_eq_some_iff, Option.pure_def, Option.some.injEq, EntryExport.mk.injEq,
    List.forall_mem_cons, List.not_mem_nil, IsEmpty.forall_iff, implies_true, and_true]
  constructor
  · rintro ⟨a, ha, rfl⟩
    exact ha
  · intro ha
    exact ⟨_, ha, rfl⟩

/-! ### Symbols -/

/-- The flags that are cleared are none of those that say which fields are links. -/
theorem clear_and (info : UInt32) {m : UInt32} (h : ~~~symClearOnInc &&& m = m) :
    info &&& ~~~symClearOnInc &&& m = info &&& m := by
  rw [UInt32.and_assoc, h]

theorem rebuildUnions_clear (info : UInt32) (p u : ℕ) :
    rebuildUnions fmt map (info &&& ~~~symClearOnInc) p u = rebuildUnions fmt map info p u := by
  unfold rebuildUnions isSymAlias isSymImported isSymComdat
  rw [clear_and info (m := symTypeMask) (by decide), clear_and info (m := symIsAltdef) (by decide)]

theorem rebuildDef_clear (info : UInt32) (e : ℕ) :
    rebuildDef fmt map (info &&& ~~~symClearOnInc) e = rebuildDef fmt map info e := by
  unfold rebuildDef
  rw [clear_and info (m := symExported) (by decide)]

variable (fmt index map f) in
theorem rebuildUnions_iff (info : UInt32) (p u : ℕ) :
    rebuildUnions fmt map info (prepUnions fmt index info p u).1 (prepUnions fmt index info p u).2 =
        some (mapUnions fmt f info p u) ↔
      ∀ l ∈ unionLinks fmt info p u, map l.1 (index l.1 l.2) = some (f l.1 l.2) := by
  unfold rebuildUnions prepUnions mapUnions unionLinks
  split_ifs with halias himp himports hseg
  · simp
  · simp [Option.bind_eq_some_iff]
  · simp
  · simp [Option.bind_eq_some_iff]
  · simp

variable (fmt f) in
/-- A link in `e` that is `NULL` is not looked at, but would stay so. -/
theorem rebuildDef_iff (hnull : index .symbol 0 = 0 ∧ map .symbol 0 = some 0) (info : UInt32) (e : ℕ) :
    rebuildDef fmt map info (prepDef fmt index info e) = some (mapDef fmt f info e) ↔
      ∀ l ∈ defLinks fmt info e, map l.1 (index l.1 l.2) = some (f l.1 l.2) := by
  unfold rebuildDef prepDef mapDef defLinks
  split_ifs with hexp hexports he hidx
  · simp
  · simp
  · simp
  · rw [Decidable.not_not] at hidx
    simp [hidx, hnull.2]
  · simp_all

theorem rebuildSymbol_iff {sym : Symbol} (h : ¬ sym.info &&& symIsFree ≠ 0)
    (hnull : index .symbol 0 = 0 ∧ map .symbol 0 = some 0) :
    rebuildSymbol fmt map (prepSymbol fmt index sym) = some (sym.mapLinks fmt f) ↔
      ∀ l ∈ sym.links fmt, map l.1 (index l.1 l.2) = some (f l.1 l.2) := by
  have hunions := rebuildUnions_iff fmt f index map sym.info sym.p sym.u
  have hdef := rebuildDef_iff fmt f hnull sym.info sym.e
  rw [prepSymbol, if_neg h, Symbol.links, List.forall_mem_append, List.forall_mem_append, ← hunions,
    ← hdef]
  simp only [rebuildSymbol, Symbol.mapLinks, rebuildUnions_clear, rebuildDef_clear,
    Option.bind_eq_bind, Option.bind_eq_some_iff, Option.pure_def, Option.some.injEq, Symbol.mk.injEq,
    List.forall_mem_cons, List.not_mem_nil, IsEmpty.forall_iff, implies_true, and_true]
  constructor
  · rintro ⟨a, ha, b, hb, c, hc, d, hd, pu, hpu, e, he, rfl, rfl, rfl, -, rfl, hp, hu, rfl⟩
    exact ⟨⟨⟨ha, hb, hc, hd⟩, hpu.trans (congrArg some (Prod.ext hp hu))⟩, he⟩
  · rintro ⟨⟨⟨ha, hb, hc, hd⟩, hpu⟩, he⟩
    exact ⟨_, ha, _, hb, _, hc, _, hd, _, hpu, _, he, rfl, rfl, rfl, trivial, rfl, rfl, rfl, rfl⟩

end links

/-! ### Elements -/

section elements

variable {fmt : IncFormat} {len : ℕ → ℕ} {index : CarveKind → ℕ → ℕ} {map : CarveKind → ℕ → Option ℕ}
  {f : CarveKind → ℕ → ℕ}

/-- What is read for an element that is not free is the element with its links mapped, exactly if every index
leads there. -/
theorem rebuild_prep_iff (hnull : index .symbol 0 = 0 ∧ map .symbol 0 = some 0) {k : CarveKind} {r : k.Rec}
    (h : k.isFree r = false) :
    k.rebuild fmt map (k.prep fmt len index r) = some (k.mapLinks fmt len f r) ↔
      ∀ l ∈ k.links fmt r, map l.1 (index l.1 l.2) = some (f l.1 l.2) := by
  cases k with
  | modEntry => exact rebuildModEntry_iff (of_decide_eq_false h)
  | segData => exact rebuildSegData_iff (Bool.eq_false_iff.mp h)
  | symbol => exact rebuildSymbol_iff (of_decide_eq_false h) hnull
  | dllInfo =>
      have hdll : ¬ DllSymInfo.isfree r = true := Bool.eq_false_iff.mp h
      have hwrite : writeDllInfo len r = { r with m := strOffs len r.m } := if_neg hdll
      constructor
      · intro _ l hl
        cases hl
      · intro _
        exact congrArg some hwrite
  | exportInfo => exact rebuildExportInfo_iff (Bool.eq_false_iff.mp h)

theorem invalid_mod : carveInvalidIndex % 2 ^ 32 = carveInvalidIndex := by decide

theorem markWord_mod (word : ℕ) : markWord word % 2 ^ 32 = carveInvalidIndex := by
  have : carveInvalidIndex = 1 := by decide
  unfold markWord
  omega

theorem or_and_ne_zero (x : UInt32) {m : UInt32} (hm : m ≠ 0) : (x ||| m) &&& m ≠ 0 := by
  have : (x ||| m) &&& m = m := by
    apply UInt32.toBitVec_inj.mp
    ext i
    simp
    grind
  rwa [this]

theorem isFree_mark {k : CarveKind} (r : k.Rec) : k.isFree (k.mark r) = true := by
  cases k with
  | modEntry => exact decide_eq_true (or_and_ne_zero _ (by decide))
  | segData => rfl
  | symbol => exact decide_eq_true (or_and_ne_zero _ (by decide))
  | dllInfo => rfl
  | exportInfo => rfl

/-- A marked element is known by its first 32 bits. -/
theorem word_prep_mark {k : CarveKind} {r : k.Rec} (h : k.isFree r = true) :
    k.word (k.prep fmt len index r) % 2 ^ 32 = carveInvalidIndex := by
  cases k with
  | modEntry =>
      change ModEntry at r
      show (prepModEntry index r).next % 2 ^ 32 = carveInvalidIndex
      rw [prepModEntry, if_pos (of_decide_eq_true h)]
      exact markWord_mod _
  | segData =>
      change SegData at r
      show (prepSegData index r).next % 2 ^ 32 = carveInvalidIndex
      rw [prepSegData, if_pos (show r.isfree = true from h)]
      exact markWord_mod _
  | symbol =>
      change Symbol at r
      show (prepSymbol fmt index r).hash % 2 ^ 32 = carveInvalidIndex
      rw [prepSymbol, if_pos (of_decide_eq_true h)]
      exact markWord_mod _
  | dllInfo =>
      change DllSymInfo at r
      show (writeDllInfo len r).m % 2 ^ 32 = carveInvalidIndex
      rw [writeDllInfo, if_pos (show r.isfree = true from h)]
      exact invalid_mod
  | exportInfo =>
      change EntryExport at r
      show (writeExportInfo index r).next % 2 ^ 32 = carveInvalidIndex
      rw [writeExportInfo, if_pos (show r.isfree = true from h)]
      exact invalid_mod

variable (fmt len index) in
/-- The first word of an element is a link to an element of the same kind, but for an import, where it is
the place of the module's name. -/
theorem word_prep {k : CarveKind} {r : k.Rec} (h : k.isFree r = false) :
    k = .dllInfo ∧ k.word (k.prep fmt len index r) = strOffs len (k.word r) ∨
      (k, k.word r) ∈ k.links fmt r ∧ k.word (k.prep fmt len index r) = index k (k.word r) := by
  cases k with
  | modEntry =>
      change ModEntry at r
      refine Or.inr ⟨List.mem_cons_self, ?_⟩
      show (prepModEntry index r).next = index .modEntry (ModEntry.next r)
      rw [prepModEntry, if_neg (of_decide_eq_false h)]
  | segData =>
      change SegData at r
      refine Or.inr ⟨List.mem_cons_self, ?_⟩
      show (prepSegData index r).next = index .segData (SegData.next r)
      rw [prepSegData, if_neg (show ¬ r.isfree = true from Bool.eq_false_iff.mp h)]
  | symbol =>
      change Symbol at r
      refine Or.inr ⟨List.mem_cons_self, ?_⟩
      show (prepSymbol fmt index r).hash = index .symbol (Symbol.hash r)
      rw [prepSymbol, if_neg (of_decide_eq_false h)]
  | dllInfo =>
      change DllSymInfo at r
      refine Or.inl ⟨rfl, ?_⟩
      show (writeDllInfo len r).m = strOffs len (DllSymInfo.m r)
      rw [writeDllInfo, if_neg (show ¬ r.isfree = true from Bool.eq_false_iff.mp h)]
  | exportInfo =>
      change EntryExport at r
      refine Or.inr ⟨List.mem_cons_self, ?_⟩
      show (writeExportInfo index r).next = index .exportInfo (EntryExport.next r)
      rw [writeExportInfo, if_neg (show ¬ r.isfree = true from Bool.eq_false_iff.mp h)]

/-- Only what is saved is linked to. -/
theorem saved_of_mem_links {k : CarveKind} {r : k.Rec} {l : CarveKind × ℕ} (h : l ∈ k.links fmt r)
    (hk : k.saved fmt = true) : l.1.saved fmt = true := by
  cases k with
  | modEntry =>
      simp only [CarveKind.links, ModEntry.links, List.mem_cons, List.not_mem_nil, or_false] at h
      rcases h with rfl | rfl | rfl <;> rfl
  | segData =>
      simp only [CarveKind.links, SegData.links, List.mem_cons, List.not_mem_nil, or_false] at h
      rcases h with rfl | rfl <;> rfl
  | symbol =>
      simp only [CarveKind.links, Symbol.links, List.mem_append, List.mem_cons, List.not_mem_nil,
        or_false] at h
      rcases h with ((rfl | rfl | rfl | rfl) | hunion) | hdef
      · rfl
      · rfl
      · rfl
      · rfl
      · unfold unionLinks at hunion
        split_ifs at hunion with halias himp himports hseg
        · cases hunion
        · obtain rfl := List.mem_singleton.mp hunion
          exact fmt.exports_of_imports himports
        · cases hunion
        · simp only [List.mem_cons, List.not_mem_nil, or_false] at hunion
          rcases hunion with rfl | rfl <;> rfl
        · cases hunion
      · unfold defLinks at hdef
        split_ifs at hdef with hexp hexports
        · obtain rfl := List.mem_singleton.mp hdef
          exact hexports
        · cases hdef
        · obtain rfl := List.mem_singleton.mp hdef
          rfl
  | dllInfo => cases h
  | exportInfo =>
      obtain rfl := List.mem_singleton.mp h
      exact hk

/-- Reading goes through the elements of the reader in the order of the writer: those with a mark are inserted in
the free list, the others are rebuilt. -/
theorem foldl_readElm {k : CarveKind} (g : ℕ → ℕ) (rec : ℕ → k.Rec) (p : ℕ → Bool) {xs : List ℕ}
    (hmark : ∀ x ∈ xs, k.word (rec x) % 2 ^ 32 = carveInvalidIndex ↔ p x = true)
    (st : Carver × List (ℕ × Option k.Rec)) :
    (xs.map fun x => (g x, rec x)).foldl (readElm fmt map) st =
      (((xs.filter p).map g).foldl Carver.insertFree st.1,
        st.2 ++ (xs.filter fun x => !p x).map fun x => (g x, k.rebuild fmt map (rec x))) := by
  induction xs generalizing st with
  | nil => simp
  | cons x xs ih =>
      have hx := hmark x List.mem_cons_self
      rw [List.map_cons, List.foldl_cons, ih fun y hy => hmark y (List.mem_cons_of_mem _ hy), readElm]
      by_cases hp : p x = true
      · rw [if_pos (hx.mpr hp), List.filter_cons_of_pos hp, List.filter_cons_of_neg (by simp [hp])]
        rfl
      · rw [if_neg (mt hx.mp hp), List.filter_cons_of_neg hp, List.filter_cons_of_pos (by simp [hp])]
        simp

theorem readElms_eq {k : CarveKind} {c : Carver} (hfree : c.freeList = [] ∧ c.insert = none)
    (hnodup : c.walk.Nodup) (g : ℕ → ℕ) (rec : ℕ → k.Rec) (p : ℕ → Bool) {xs : List ℕ}
    (hwalk : xs.map g = c.walk)
    (hmark : ∀ x ∈ xs, k.word (rec x) % 2 ^ 32 = carveInvalidIndex ↔ p x = true) :
    (readElms fmt map c (xs.map rec)).1.freeList = (xs.filter p).map g ∧
      (readElms fmt map c (xs.map rec)).2 =
        (xs.filter fun x => !p x).map fun x => (g x, k.rebuild fmt map (rec x)) := by
  have hzip : c.walk.zip (xs.map rec) = xs.map fun x => (g x, rec x) := by
    rw [← hwalk, List.zip_map']
  have hsub : ((xs.filter p).map g).Nodup :=
    hnodup.sublist (hwalk ▸ List.filter_sublist.map g)
  rw [readElms, hzip, foldl_readElm g rec p hmark, Carver.foldl_insertFree]
  · rw [hfree.1]
    exact ⟨rfl, rfl⟩
  · rw [hfree.1, hfree.2]
    rfl
  · rwa [hfree.1]

end elements

/-! ### The round trip -/

namespace Carved

variable {k : CarveKind} (c : Carved k)

/-- The elements in use and the free ones, in the order of the walk. -/
def live : List ℕ := c.carver.walk.filter fun elm => !decide (elm ∈ c.carver.freeList)
def dead : List ℕ := c.carver.walk.filter fun elm => decide (elm ∈ c.carver.freeList)

end Carved

section roundTrip

variable (fmt : IncFormat) (len : ℕ → ℕ) (st : (k : CarveKind) → Carved k)

/-- The structures at the end of a link: every carver has a history, no element in use has the mark, and its
links are `NULL` or lead to elements. -/
structure Linked : Prop where
  history : ∀ k, ∃ es, Along Carver.step Carver.StepOk (Carver.init (st k).carver.shape) es ∧
    (st k).carver = run Carver.step (Carver.init (st k).carver.shape) es
  unmarked : ∀ k, ∀ elm ∈ (st k).live, k.isFree ((st k).mem elm) = false
  links : ∀ k, k.saved fmt = true → ∀ elm ∈ (st k).live, ∀ l ∈ k.links fmt ((st k).mem elm),
    l.2 = 0 ∨ l.2 ∈ (st l.1).carver.walk

/-- An element as it is written. -/
def written (k : CarveKind) (elm : ℕ) : k.Rec :=
  k.prep fmt len (fun k => (st k).carver.getIndex)
    (if elm ∈ (st k).carver.freeList then k.mark ((st k).mem elm) else (st k).mem elm)

variable (addr : CarveKind → ℕ → ℕ)

/-- The carvers of the next link, restarted with blocks at the addresses `addr`. -/
def reader (k : CarveKind) : Carver :=
  if k.saved fmt = true then Carver.restart (st k).carver.shape (addr k) (st k).carver.numElements
  else Carver.init (st k).carver.shape

/-- The element of the next link in the same position. -/
def image (k : CarveKind) : ℕ → ℕ := (st k).carver.image (reader fmt st addr k)

def readBack (k : CarveKind) : Carver × List (ℕ × Option k.Rec) :=
  readElms fmt (fun k => (reader fmt st addr k).mapIndex) (reader fmt st addr k)
    ((st k).dump fmt len fun k => (st k).carver.getIndex)

/-- What is read back is isomorphic. -/
structure RoundTrip (k : CarveKind) : Prop where
  null : (reader fmt st addr k).mapIndex ((st k).carver.getIndex 0) = some 0
  walk : (st k).carver.walk.map (image fmt st addr k) = (reader fmt st addr k).walk
  nodup : (reader fmt st addr k).walk.Nodup
  marks : ∀ elm ∈ (st k).live, k.word (written fmt len st k elm) % 2 ^ 32 ≠ carveInvalidIndex
  live : (readBack fmt len st addr k).2 = (st k).live.map fun elm =>
    (image fmt st addr k elm, some (k.mapLinks fmt len (image fmt st addr) ((st k).mem elm)))
  free : (readBack fmt len st addr k).1.freeList = (st k).dead.map (image fmt st addr k)

/-- What the fields of the file can hold: the number of elements has 32 bits, and the number of a block
that is linked to 16; and the place of a module's name is not taken for the mark. -/
structure Fits : Prop where
  counts : ∀ k, k.saved fmt = true →
    (st k).carver.blkList.length * (st k).carver.shape.elmCount < 2 ^ 32
  links : ∀ k, k.saved fmt = true → ∀ elm ∈ (st k).live, ∀ l ∈ k.links fmt ((st k).mem elm),
    l.2 ≠ 0 → (st l.1).carver.blkNo l.2 < 2 ^ 16
  names : fmt.exports = true → ∀ elm ∈ (st .dllInfo).live,
    strOffs len (DllSymInfo.m ((st .dllInfo).mem elm)) % 2 ^ 32 ≠ carveInvalidIndex

variable {fmt len st addr}

theorem Linked.inv (h : Linked fmt st) (k : CarveKind) : CarveInv (st k).carver := by
  obtain ⟨es, hok, heq⟩ := h.history k
  rw [heq]
  exact carveInv_run (carveInv_init _) hok

theorem mem_live {k : CarveKind} {elm : ℕ} :
    elm ∈ (st k).live ↔ elm ∈ (st k).carver.walk ∧ elm ∉ (st k).carver.freeList := by
  simp [Carved.live, List.mem_filter]

theorem written_live {k : CarveKind} {elm : ℕ} (h : elm ∈ (st k).live) :
    written fmt len st k elm =
      k.prep fmt len (fun k => (st k).carver.getIndex) ((st k).mem elm) := by
  rw [written, if_neg (mem_live.mp h).2]

/-- Only the place of a module's name can be taken for the mark. -/
theorem marks_of_names (h : Linked fmt st) {k : CarveKind} (hk : k.saved fmt = true)
    (hnames : ∀ elm ∈ (st .dllInfo).live, fmt.exports = true →
      strOffs len (DllSymInfo.m ((st .dllInfo).mem elm)) % 2 ^ 32 ≠ carveInvalidIndex)
    {elm : ℕ} (helm : elm ∈ (st k).live) :
    k.word (written fmt len st k elm) % 2 ^ 32 ≠ carveInvalidIndex := by
  rw [written_live helm]
  rcases word_prep fmt len (fun k => (st k).carver.getIndex)
    (h.unmarked k elm helm) with ⟨rfl, hword⟩ | ⟨hmem, hword⟩
  · rw [hword]
    exact hnames elm helm hk
  · rw [hword]
    exact Carver.getIndex_ne_invalid (h.inv k).blocks (h.links k hk elm helm _ hmem)

/-- Where the place of a name is taken for the mark, an element in use is. -/
theorem names_of_marks (h : Linked fmt st)
    (hmarks : ∀ elm ∈ (st .dllInfo).live,
      CarveKind.word .dllInfo (written fmt len st .dllInfo elm) % 2 ^ 32 ≠ carveInvalidIndex) :
    ∀ elm ∈ (st .dllInfo).live,
      strOffs len (DllSymInfo.m ((st .dllInfo).mem elm)) % 2 ^ 32 ≠ carveInvalidIndex := by
  intro elm helm
  have hmark := hmarks elm helm
  rw [written_live helm] at hmark
  rcases word_prep fmt len (fun k => (st k).carver.getIndex)
    (h.unmarked _ elm helm) with ⟨-, hword⟩ | ⟨hmem, -⟩
  · rwa [hword] at hmark
  · cases hmem

/-- The marks are those of the free elements. -/
theorem word_written {k : CarveKind}
    (hmarks : ∀ elm ∈ (st k).live, k.word (written fmt len st k elm) % 2 ^ 32 ≠ carveInvalidIndex) :
    ∀ elm ∈ (st k).carver.walk, k.word (written fmt len st k elm) % 2 ^ 32 = carveInvalidIndex ↔
      decide (elm ∈ (st k).carver.freeList) = true := by
  intro elm helm
  rw [decide_eq_true_iff]
  constructor
  · intro hword
    by_contra hfree
    exact hmarks elm (mem_live.mpr ⟨helm, hfree⟩) hword
  · intro hfree
    rw [written, if_pos hfree]
    exact word_prep_mark (isFree_mark _)

/-- What is read if the blocks correspond and no element in use is taken for a free one. -/
theorem readBack_eq (h : Linked fmt st) {k : CarveKind}
    (hr : Carver.Restarted (st k).carver (reader fmt st addr k))
    (hfree : (reader fmt st addr k).freeList = [] ∧ (reader fmt st addr k).insert = none)
    (hmarks : ∀ elm ∈ (st k).live, k.word (written fmt len st k elm) % 2 ^ 32 ≠ carveInvalidIndex) :
    (readBack fmt len st addr k).1.freeList = (st k).dead.map (image fmt st addr k) ∧
      (readBack fmt len st addr k).2 = (st k).live.map fun elm => (image fmt st addr k elm,
        k.rebuild fmt (fun k => (reader fmt st addr k).mapIndex) (written fmt len st k elm)) :=
  readElms_eq hfree hr.blocks.walk_nodup (image fmt st addr k) (written fmt len st k)
    (fun elm => decide (elm ∈ (st k).carver.freeList)) (hr.map_walk (h.inv k).blocks)
    (word_written hmarks)

section

variable (haddr : ∀ k, k.saved fmt = true →
  Carver.AddrsApart (st k).carver.shape (addr k) (st k).carver.blkList.length)

include haddr

theorem reader_restarted {k : CarveKind} (hk : k.saved fmt = true)
    (hcount : (st k).carver.blkList.length * (st k).carver.shape.elmCount < 2 ^ 32) :
    Carver.Restarted (st k).carver (reader fmt st addr k) ∧
      (reader fmt st addr k).freeList = [] ∧ (reader fmt st addr k).insert = none := by
  rw [reader, if_pos hk]
  exact Carver.restarted_restart hcount (haddr k hk)

/-- With more than 32 bits the number of elements makes too few blocks. -/
theorem counts_of_walk {k : CarveKind} (hk : k.saved fmt = true)
    (hwalk : (st k).carver.walk.map (image fmt st addr k) = (reader fmt st addr k).walk) :
    (st k).carver.blkList.length * (st k).carver.shape.elmCount < 2 ^ 32 := by
  have hlength := congrArg List.length hwalk
  have haddrs := haddr k hk
  have hblk : ∀ (s : CarveShape) b, (s.blkElms b).length = s.elmCount := fun s b => by
    rw [CarveShape.blkElms, List.length_map, List.length_range]
  generalize hc : (st k).carver = c at *
  have hpos : 0 < c.shape.elmCount := c.shape.count_pos
  have htop : c.shape.elmCount < 2 ^ 16 := by
    have := c.shape.top_lt
    have hsize := Nat.le_mul_of_pos_right c.shape.elmCount c.shape.pos
    unfold CarveShape.elmCount at *
    omega
  by_contra hge
  have hnum : c.numElements + 2 ^ 32 ≤ c.blkList.length * c.shape.elmCount := by
    unfold Carver.numElements
    omega
  have hle : (c.numElements + c.shape.elmCount - 1) / c.shape.elmCount ≤ c.blkList.length := by
    refine Nat.div_le_of_le_mul ?_
    rw [Nat.mul_comm]
    omega
  have hlen : (Carver.restart c.shape (addr k) c.numElements).blkList.length = _ :=
    Carver.restart_length c.shape fun i hi => haddrs i (hi.trans_le hle)
  have hshape : (Carver.restart c.shape (addr k) c.numElements).shape = c.shape := by
    unfold Carver.restart
    split_ifs <;> rfl
  rw [List.length_map, reader, if_pos hk, hc, Carver.walk, Carver.walk, length_flatMap_of_length (hblk _),
    length_flatMap_of_length (hblk _), hlen, hshape] at hlength
  have := Nat.div_mul_le_self (c.numElements + c.shape.elmCount - 1) c.shape.elmCount
  omega

/-- An element in use is read as its image exactly if the numbers of the blocks that it is linked to
fit. -/
theorem rebuild_written_iff (h : Linked fmt st)
    (hcounts : ∀ k, k.saved fmt = true →
      (st k).carver.blkList.length * (st k).carver.shape.elmCount < 2 ^ 32)
    {k : CarveKind} (hk : k.saved fmt = true) {elm : ℕ} (helm : elm ∈ (st k).live) :
    k.rebuild fmt (fun k => (reader fmt st addr k).mapIndex) (written fmt len st k elm) =
        some (k.mapLinks fmt len (image fmt st addr) ((st k).mem elm)) ↔
      ∀ l ∈ k.links fmt ((st k).mem elm), l.2 ≠ 0 → (st l.1).carver.blkNo l.2 < 2 ^ 16 := by
  rw [written_live helm, rebuild_prep_iff ⟨rfl, rfl⟩ (h.unmarked k elm helm)]
  refine forall₂_congr fun l hl => ?_
  have hsaved := saved_of_mem_links hl hk
  have hr := (reader_restarted haddr hsaved (hcounts l.1 hsaved)).1
  by_cases h0 : l.2 = 0
  · rw [h0]
    exact ⟨fun _ hne => absurd rfl hne, fun _ => rfl⟩
  · have hmem := (h.links k hk elm helm l hl).resolve_left h0
    have := Carver.mapIndex_getIndex_iff (h.inv l.1).blocks hr hmem
    exact this.trans ⟨fun hlt _ => hlt, fun hlt => hlt h0⟩

theorem fits_of_roundTrip (h : Linked fmt st)
    (hround : ∀ k, k.saved fmt = true → RoundTrip fmt len st addr k) : Fits fmt len st := by
  have hcounts : ∀ k : CarveKind, k.saved fmt = true → _ := fun k hk =>
    counts_of_walk haddr hk (hround k hk).walk
  refine ⟨hcounts, fun k hk elm helm => ?_, fun hexp => ?_⟩
  · obtain ⟨hr, hfree⟩ := reader_restarted haddr hk (hcounts k hk)
    have hlive := (hround k hk).live
    rw [(readBack_eq h hr hfree (hround k hk).marks).2, List.map_inj_left] at hlive
    exact (rebuild_written_iff haddr h hcounts hk helm).mp (Prod.ext_iff.mp (hlive elm helm)).2
  · exact names_of_marks h (hround .dllInfo hexp).marks

end

/-! ### Symbols alone -/

/-- A symbol that is only linked to the next one. -/
def symbolTo (next : ℕ) : Symbol := ⟨0, 0, next, 0, 0, 0, 0, 0⟩

/-- Carvers that are empty but for the one for symbols, whose symbols are all followed by the same one. -/
def symbolsOnly (c : Carver) (next : ℕ) : (k : CarveKind) → Carved k
  | .symbol => ⟨c, fun _ => symbolTo next⟩
  | .modEntry => ⟨Carver.init c.shape, fun _ => (⟨0, 0, 0, 0⟩ : ModEntry)⟩
  | .segData => ⟨Carver.init c.shape, fun _ => (⟨0, 0, false⟩ : SegData)⟩
  | .dllInfo => ⟨Carver.init c.shape, fun _ => (⟨0, false⟩ : DllSymInfo)⟩
  | .exportInfo => ⟨Carver.init c.shape, fun _ => (⟨0, false⟩ : EntryExport)⟩

theorem symbolsOnly_empty {c : Carver} {next : ℕ} {k : CarveKind} (h : k ≠ .symbol) :
    (symbolsOnly c next k).carver = Carver.init c.shape ∧ (symbolsOnly c next k).live = [] := by
  cases k with
  | symbol => exact absurd rfl h
  | modEntry => exact ⟨rfl, rfl⟩
  | segData => exact ⟨rfl, rfl⟩
  | dllInfo => exact ⟨rfl, rfl⟩
  | exportInfo => exact ⟨rfl, rfl⟩

theorem symbolTo_links (next : ℕ) {l : CarveKind × ℕ} (h : l ∈ (symbolTo next).links fmt) :
    l = (.symbol, next) ∨ l.2 = 0 := by
  simp only [Symbol.links, symbolTo, unionLinks, defLinks, isSymAlias, isSymImported, isSymComdat] at h
  simp [symTypeMask, symAlias, symImported, symIsAltdef, symExported] at h
  grind

theorem linked_symbolsOnly {shape : CarveShape} {c : Carver} {es : List CarveEvent}
    (hshape : c.shape = shape) (hok : Along Carver.step Carver.StepOk (Carver.init shape) es)
    (hrun : c = run Carver.step (Carver.init shape) es) {next : ℕ} (hnext : next ∈ c.walk) :
    Linked fmt (symbolsOnly c next) := by
  subst hshape
  refine ⟨fun k => ?_, fun k elm helm => ?_, fun k _ elm helm l hl => ?_⟩
  · by_cases hk : k = .symbol
    · subst hk
      exact ⟨es, hok, hrun⟩
    · rw [(symbolsOnly_empty hk).1]
      exact ⟨[], trivial, rfl⟩
  · by_cases hk : k = .symbol
    · subst hk
      exact decide_eq_false (p := (0 : UInt32) &&& symIsFree ≠ 0) (by decide)
    · rw [(symbolsOnly_empty hk).2] at helm
      cases helm
  · by_cases hk : k = .symbol
    · subst hk
      rcases symbolTo_links next hl with rfl | h0
      · exact Or.inr hnext
      · exact Or.inl h0
    · rw [(symbolsOnly_empty hk).2] at helm
      cases helm

theorem fits_symbolsOnly_iff {c : Carver} {next : ℕ}
    (hcount : c.blkList.length * c.shape.elmCount < 2 ^ 32) (hnext : next ≠ 0)
    (hlive : (symbolsOnly c next .symbol).live ≠ []) :
    Fits fmt len (symbolsOnly c next) ↔ c.blkNo next < 2 ^ 16 := by
  constructor
  · intro h
    obtain ⟨elm, helm⟩ := List.exists_mem_of_ne_nil _ hlive
    refine h.links .symbol rfl elm helm (.symbol, next) ?_ hnext
    exact List.mem_append_left _ (List.mem_append_left _ (List.mem_cons_of_mem _ List.mem_cons_self))
  · intro hblk
    refine ⟨fun k _ => ?_, fun k _ elm helm l hl h0 => ?_, fun _ elm helm => by cases helm⟩
    · by_cases hk : k = .symbol
      · subst hk
        exact hcount
      · rw [(symbolsOnly_empty hk).1]
        exact (Nat.zero_mul _).trans_lt (by decide)
    · by_cases hk : k = .symbol
      · subst hk
        rcases symbolTo_links next hl with rfl | hl0
        · exact hblk
        · exact absurd hl0 h0
      · rw [(symbolsOnly_empty hk).2] at helm
        cases helm

/-- The structures that are saved are isomorphic to what is read back for them exactly if the counts, the block
numbers in links and the places of names fit. -/
theorem permData_roundTrip_iff (h : Linked fmt st)
    (haddr : ∀ k, k.saved fmt = true →
      Carver.AddrsApart (st k).carver.shape (addr k) (st k).carver.blkList.length) :
    (∀ k, k.saved fmt = true → RoundTrip fmt len st addr k) ↔ Fits fmt len st := by
  constructor
  · exact fits_of_roundTrip haddr h
  · intro hfits k hk
    obtain ⟨hr, hfree⟩ := reader_restarted haddr hk (hfits.counts k hk)
    have hmarks : ∀ elm ∈ (st k).live, _ := fun elm helm =>
      marks_of_names h hk (fun elm helm hexp => hfits.names hexp elm helm) helm
    obtain ⟨hdead, hlive⟩ := readBack_eq h hr hfree hmarks
    refine ⟨rfl, hr.map_walk (h.inv k).blocks, hr.blocks.walk_nodup, hmarks, ?_, hdead⟩
    rw [hlive, List.map_inj_left]
    intro elm helm
    rw [(rebuild_written_iff haddr h hfits.counts hk helm).mpr (hfits.links k hk elm helm)]

/-- Two blocks of two symbols, the second block at a lower address; a symbol in each is free, and the symbols in use
are followed by the one at the lower address. -/
theorem permData_roundTrip_symbols :
    RoundTrip ⟨true, true, id⟩ (fun _ => 5)
      (symbolsOnly (run Carver.step (Carver.init ⟨96, 192, by decide, by decide, by decide, by decide⟩)
        [.alloc 1000, .alloc 0, .alloc 100, .free 1112]) 116) (fun _ i => 2000 + 500 * i) .symbol := by
  refine (permData_roundTrip_iff (linked_symbolsOnly rfl (by decide) rfl (by decide)) ?_).mpr
    ((fits_symbolsOnly_iff (by decide) (by decide) (by decide)).mpr (by decide)) .symbol rfl
  intro k _ i hi
  refine ⟨by positivity, fun j hj => Or.inr ?_⟩
  have hsize : ((symbolsOnly (run Carver.step
    (Carver.init ⟨96, 192, by decide, by decide, by decide, by decide⟩)
    [.alloc 1000, .alloc 0, .alloc 100, .free 1112]) 116) k).carver.shape.memSize = 208 := by
    cases k <;> rfl
  rw [hsize]
  show 2000 + 500 * j + 208 ≤ 2000 + 500 * i
  omega

/-- With as many blocks of symbols as sixteen bits can number and one more, the symbol at the beginning of the block at
the highest address has the index of `NULL`. -/
theorem permData_links_lost :
    ¬ ∀ (fmt : IncFormat) (len : ℕ → ℕ) (st : (k : CarveKind) → Carved k) (addr : CarveKind → ℕ → ℕ),
      Linked fmt st →
      (∀ k, k.saved fmt = true →
        Carver.AddrsApart (st k).carver.shape (addr k) (st k).carver.blkList.length) →
      ∀ k, k.saved fmt = true → RoundTrip fmt len st addr k := by
  intro h
  obtain ⟨shape, hshape⟩ : ∃ shape : CarveShape, shape.elmCount = 341 :=
    ⟨⟨96, 32768, by decide, by decide, by decide, by decide⟩, rfl⟩
  obtain ⟨n, hn⟩ : ∃ n, n + 1 = 2 ^ 16 := ⟨2 ^ 16 - 1, rfl⟩
  obtain ⟨hok, hrun⟩ := Carver.run_fillEvents shape (n + 1)
  obtain ⟨hwalk, hblkNo⟩ := Carver.filled_last shape n
  have haddr : ∀ k : CarveKind, k.saved ⟨true, true, id⟩ = true → Carver.AddrsApart
      (symbolsOnly (Carver.filled shape (n + 1)) (Carver.fillAddr shape n + carveHdr) k).carver.shape
      (Carver.fillAddr shape) (symbolsOnly (Carver.filled shape (n + 1))
        (Carver.fillAddr shape n + carveHdr) k).carver.blkList.length := fun k _ => by
    cases k <;> exact Carver.addrsApart_fillAddr shape _
  have hlinked : Linked ⟨true, true, id⟩ (symbolsOnly (Carver.filled shape (n + 1))
      (Carver.fillAddr shape n + carveHdr)) := linked_symbolsOnly rfl hok hrun.symm hwalk
  have hlive : (symbolsOnly (Carver.filled shape (n + 1)) (Carver.fillAddr shape n + carveHdr)
      .symbol).live ≠ [] :=
    List.ne_nil_of_mem (mem_live.mpr ⟨hwalk, List.not_mem_nil⟩)
  have hcount : (Carver.filled shape (n + 1)).blkList.length * (Carver.filled shape (n + 1)).shape.elmCount
      < 2 ^ 32 := by
    rw [Carver.filled, List.length_reverse, List.length_map, List.length_range, hn, hshape]
    decide
  have hfits := fits_of_roundTrip haddr hlinked
    (h ⟨true, true, id⟩ (fun _ => 5) _ (fun _ => Carver.fillAddr shape) hlinked haddr)
  have hnext : Carver.fillAddr shape n + carveHdr ≠ 0 := Nat.succ_ne_zero _
  have hlt := (fits_symbolsOnly_iff hcount hnext hlive).mp hfits
  rw [hblkNo, hn] at hlt
  exact lt_irrefl _ hlt

end roundTrip

end OpenWatcom.Wlink.PermData
