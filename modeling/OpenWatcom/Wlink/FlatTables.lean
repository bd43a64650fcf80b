import OpenWatcom.Lib.Blocks
import OpenWatcom.Wlink.RelocOutput

/-! # The page map of LE and LX files

`loadflat.c`: the object table and the object page map, and the data pages behind them.  An object has
the pages of its group's initialised part; the map says for each page where its data is, as a page number
(LE) or an offset in units of `segment_shift` and a size (LX).  What a loader finds, and when that is what
the groups have, is in `FlatPages.lean`.

* `mapped_numberGroup`: with units of at most a page the map of a group, which `NumberBuf` makes in pieces,
  has the entries of consecutive pages;
* `pageMap_bounds`: what holds of the map with every shift;
* `objRecords_getElem?`: the record of a group. -/

namespace OpenWatcom.Wlink

/-! ### The object table and the page map -/

/-- `MK_OS2_LE` and `MK_WIN_VXD`, or `MK_OS2_LX` with its `segment_shift`. -/
inductive FlatKind where
  | le
  | lx (shift : ℕ)
  deriving DecidableEq, Repr

/-- `page_shift` of the header. -/
def FlatKind.pageShift : FlatKind → ℕ
  | .le => 0
  | .lx shift => shift

/-- `__ROUND_UP_SIZE_PWROF2`. -/
def roundUpPwrof2 (size shift : ℕ) : ℕ := (size + (2 ^ shift - 1)) / 2 ^ shift * 2 ^ shift

/-- `le_map_entry` with the three bytes of its page number, and `lx_map_entry`. -/
inductive MapEntry where
  | le (high mid low : Byte)
  | lx (pageOffset dataSize : ℕ)
  deriving DecidableEq, Repr

/-- The entry of a page number. -/
def MapEntry.ofPage (num : ℕ) : MapEntry :=
  .le (UInt8.ofNat (num / 2 ^ 16)) (UInt8.ofNat (num / 2 ^ 8)) (UInt8.ofNat num)

/-- The loop of `NumberBuf` for LE. -/
def numberLe : ℕ → ℕ → List MapEntry × ℕ
  | 0, start => ([], start)
  | num + 1, start =>
    let start := (start + 1) % 2 ^ 32
    let r := numberLe num start
    (MapEntry.ofPage start :: r.1, r.2)

/-- The loop of `NumberBuf` for LX, for the `num` rounds until `limit` is 0. -/
def numberLx (shift : ℕ) : ℕ → ℕ → ℕ → List MapEntry × ℕ
  | 0, start, _ => ([], start)
  | num + 1, start, limit =>
    if 4096 < limit then
      let r := numberLx shift num ((start + 4096) % 2 ^ 32) (limit - 4096)
      (.lx (start / 2 ^ shift) 4096 :: r.1, r.2)
    else
      let dataSize := roundUpPwrof2 limit shift % 2 ^ 16
      ([.lx (start / 2 ^ shift) dataSize], (start + dataSize) % 2 ^ 32)

/-- `NumberBuf`: the entries, and the number to go on with. -/
def numberBuf (kind : FlatKind) (start limit : ℕ) : List MapEntry × ℕ :=
  match kind with
  | .le => numberLe (pageCount limit) start
  | .lx shift => numberLx shift (pageCount limit) start limit

/-- `PAGEMAP_BUF_SIZE`: the size that the entries in the buffer stand for. -/
def pageMapBufSize : ℕ := 4096 / 8 * 4096

/-- The entries of a group, a buffer at a time, with at most so many full buffers. -/
def numberGroup (kind : FlatKind) : ℕ → ℕ → ℕ → List MapEntry × ℕ
  | 0, start, sizeleft => numberBuf kind start sizeleft
  | full + 1, start, sizeleft =>
    if pageMapBufSize < sizeleft then
      let r := numberBuf kind start pageMapBufSize
      let s := numberGroup kind full r.2 (sizeleft - pageMapBufSize)
      (r.1 ++ s.1, s.2)
    else numberBuf kind start sizeleft

/-- An `object_record`. -/
structure ObjRecord where
  size : ℕ
  addr : ℕ
  mapidx : ℕ
  mapsize : ℕ
  deriving DecidableEq, Repr

/-- The groups of the load file: their number and the groups, none with more initialised bytes than
it has bytes. -/
structure FlatGroups where
  count : ℕ
  group : ℕ → RelocGroup
  size_le : ∀ g, (group g).size ≤ (group g).totalsize

section tables

variable (kind : FlatKind) (gs : FlatGroups)

/-- The first loop of `WriteObjectTables`, for a group: the records so far and `numpages`. -/
def writeObjRecord (group : RelocGroup) (t : List ObjRecord × ℕ) : List ObjRecord × ℕ :=
  if group.totalsize = 0 then t
  else
    (t.1 ++ [⟨group.totalsize, group.linear, t.2 + 1, pageCount group.size⟩],
      t.2 + pageCount group.size)

/-- The second loop, for a group: the entries so far and `start`. -/
def writePageMap (group : RelocGroup) (t : List MapEntry × ℕ) : List MapEntry × ℕ :=
  if group.totalsize = 0 then t
  else
    let r := numberGroup kind (group.size / pageMapBufSize) t.2 group.size
    (t.1 ++ r.1, r.2)

/-- `WriteObjectTables` after the first `n` groups: the object table, and the page map. -/
def objRecords (n : ℕ) : List ObjRecord × ℕ :=
  (List.range n).foldl (fun t g => writeObjRecord (gs.group g) t) ([], 0)

def pageMap (n : ℕ) : List MapEntry × ℕ :=
  (List.range n).foldl (fun t g => writePageMap kind (gs.group g) t) ([], 0)

/-! ### The data pages -/

/-- The padding behind a last page of so many bytes. -/
def FlatKind.padding : FlatKind → ℕ → ℕ
  | .le, lastPage => 4096 - lastPage
  | .lx shift, lastPage => roundUpPwrof2 lastPage shift - lastPage

/-- What has been written, and `last_page`. -/
structure PagesOut where
  out : List Byte
  lastPage : ℕ

variable (fill : Byte) (bytes : ℕ → ℕ → Byte)

/-- The loop of `WriteDataPages`, for a group. -/
def writeGroupPages (group : RelocGroup) (image : ℕ → Byte) (o : PagesOut) : PagesOut :=
  if group.size ≠ 0 then
    let out := if o.lastPage ≠ 0 then o.out ++ List.replicate (kind.padding o.lastPage) fill else o.out
    ⟨out ++ slice image 0 group.size, group.size % 4096⟩
  else o

def groupPages (n : ℕ) : PagesOut :=
  (List.range n).foldl (fun o g => writeGroupPages kind fill (gs.group g) (bytes g) o) ⟨[], 0⟩

/-- `WriteDataPages`, where `bytes g` are the bytes that `WriteGroupLoad` writes for group `g`. -/
def writeDataPages : PagesOut :=
  let o := groupPages kind gs fill bytes gs.count
  if o.lastPage = 0 then { o with lastPage := 4096 }
  else
    match kind with
    | .le => o
    | .lx _ => { o with out := o.out ++ List.replicate (kind.padding o.lastPage) fill }

/-! ### Loading -/

/-- Where the data of a page is, from `page_off` on. -/
def MapEntry.place : MapEntry → ℕ
  | .le high mid low => (2 ^ 16 * high.toNat + 2 ^ 8 * mid.toNat + low.toNat - 1) * 4096
  | .lx pageOffset _ => pageOffset * 2 ^ kind.pageShift

/-- How many bytes of a page are in the file. -/
def MapEntry.dataSize : MapEntry → ℕ
  | .le _ _ _ => 4096
  | .lx _ dataSize => dataSize

/-- The byte that the loader of the file has at offset `a` of object `i`: from the file where the page has
data there, and otherwise 0. -/
def pageByte (objs : List ObjRecord) (map : List MapEntry) (data : List Byte) (i a : ℕ) : Option Byte :=
  objs[i]?.bind fun obj =>
    if a / 4096 < obj.mapsize then
      map[obj.mapidx - 1 + a / 4096]?.bind fun entry =>
        if a % 4096 < entry.dataSize then data[entry.place kind + a % 4096]? else some 0
    else some 0

/-- The number of the object of a group: the groups that have no bytes are left out. -/
def objIndex (g : ℕ) : ℕ := ((List.range g).filter fun i => (gs.group i).totalsize ≠ 0).length

/-- Loading the file gives each group's initialised bytes at their offsets. -/
def Loads : Prop := ∀ g < gs.count, ∀ a < (gs.group g).size,
  pageByte kind (objRecords gs gs.count).1 (pageMap kind gs gs.count).1
    (writeDataPages kind gs fill bytes).out (objIndex gs g) a = some (bytes g a)

/-! ### Places -/

/-- The number of pages of the groups before `g`. -/
def firstPage (g : ℕ) : ℕ := startOf (fun i => pageCount (gs.group i).size) g

/-- The bytes of a group with the padding behind them. -/
def FlatKind.written (size : ℕ) : ℕ :=
  size + if size % 4096 = 0 then 0 else kind.padding (size % 4096)

/-- Where the data pages of group `g` start. -/
def dataPlace (g : ℕ) : ℕ := startOf (fun i => kind.written (gs.group i).size) g

/-- The places that a map entry can give are below this. -/
def FlatKind.placeLimit : FlatKind → ℕ
  | .le => 4096 * (2 ^ 24 - 1)
  | .lx _ => 2 ^ 32

/-- The shift is one for which the units of the offsets are no bigger than a page, or there is one page
for each group and none but the last is full. -/
def ShiftFits (g : ℕ) : Prop :=
  match kind with
  | .le => True
  | .lx shift => shift ≤ 12 ∨ shift ≤ 15 ∧ (gs.group g).size ≤ 4096 ∧
      ((gs.group g).size = 4096 → ∀ g' < gs.count, g < g' → (gs.group g').size = 0)

instance (g : ℕ) : Decidable (ShiftFits kind gs g) := by
  unfold ShiftFits
  split <;> infer_instance

/-- The page map has room for the places of all pages: those of LE have 24-bit page numbers, those of LX
32-bit offsets in the units of the shift. -/
def PagesFit : Prop := ∀ g < gs.count, (gs.group g).size ≠ 0 →
  dataPlace kind gs g + 4096 * (pageCount (gs.group g).size - 1) < kind.placeLimit ∧
    ShiftFits kind gs g

instance : Decidable (PagesFit kind gs) := inferInstanceAs (Decidable (∀ g < gs.count, _ → _))

end tables

/-! ### Rounding -/

theorem le_roundUpPwrof2 (size shift : ℕ) : size ≤ roundUpPwrof2 size shift := by
  have hpos := Nat.two_pow_pos shift
  have hmod := Nat.mod_lt (size + (2 ^ shift - 1)) hpos
  have hdiv := Nat.div_add_mod' (size + (2 ^ shift - 1)) (2 ^ shift)
  unfold roundUpPwrof2
  omega

theorem dvd_roundUpPwrof2 (size shift : ℕ) : 2 ^ shift ∣ roundUpPwrof2 size shift :=
  Dvd.intro_left _ rfl

/-- No multiple of the unit at or above the size is below the rounded size. -/
theorem roundUpPwrof2_le {size shift m : ℕ} (h : size ≤ m) (hm : 2 ^ shift ∣ m) :
    roundUpPwrof2 size shift ≤ m := by
  obtain ⟨q, rfl⟩ := hm
  have hpos := Nat.two_pow_pos shift
  have hlt : (size + (2 ^ shift - 1)) / 2 ^ shift < q + 1 := by
    rw [Nat.div_lt_iff_lt_mul hpos, Nat.mul_comm, Nat.mul_succ]
    omega
  rw [roundUpPwrof2, Nat.mul_comm]
  exact Nat.mul_le_mul_left _ (Nat.le_of_lt_succ hlt)

theorem roundUpPwrof2_of_dvd {size shift : ℕ} (h : 2 ^ shift ∣ size) : roundUpPwrof2 size shift = size :=
  le_antisymm (roundUpPwrof2_le le_rfl h) (le_roundUpPwrof2 size shift)

theorem two_pow_dvd_page {shift : ℕ} (h : shift ≤ 12) : 2 ^ shift ∣ 4096 := pow_dvd_pow 2 h

theorem pageCount_zero : pageCount 0 = 0 := rfl

theorem pageCount_pos {size : ℕ} (h : size ≠ 0) : 0 < pageCount size := by
  unfold pageCount
  omega

theorem pageCount_add {a : ℕ} (h : 4096 ∣ a) (b : ℕ) : pageCount (a + b) = a / 4096 + pageCount b := by
  unfold pageCount
  omega

/-! ### The map of a group -/

/-- The places are multiples of this. -/
def FlatKind.unit : FlatKind → ℕ
  | .le => 4096
  | .lx shift => 2 ^ shift

/-- The number from which `NumberBuf` goes on where the next page is at `p`. -/
def FlatKind.counter : FlatKind → ℕ → ℕ
  | .le, p => p / 4096 % 2 ^ 32
  | .lx _, p => p % 2 ^ 32

theorem FlatKind.placeLimit_le : FlatKind.le.placeLimit = 4096 * (2 ^ 24 - 1) := rfl

theorem FlatKind.placeLimit_lx (shift : ℕ) : (FlatKind.lx shift).placeLimit = 2 ^ 32 := rfl

theorem FlatKind.counter_le (p : ℕ) : FlatKind.le.counter p = p / 4096 % 2 ^ 32 := rfl

theorem FlatKind.counter_lx (shift p : ℕ) : (FlatKind.lx shift).counter p = p % 2 ^ 32 := rfl

theorem FlatKind.counter_zero (kind : FlatKind) : kind.counter 0 = 0 := by
  cases kind with
  | le => rw [FlatKind.counter_le, Nat.zero_div, Nat.zero_mod]
  | lx shift => rw [FlatKind.counter_lx, Nat.zero_mod]

theorem FlatKind.padding_le (lastPage : ℕ) : FlatKind.le.padding lastPage = 4096 - lastPage := rfl

theorem FlatKind.padding_lx (shift lastPage : ℕ) :
    (FlatKind.lx shift).padding lastPage = roundUpPwrof2 lastPage shift - lastPage := rfl

theorem FlatKind.unit_dvd_page {kind : FlatKind} (h : kind.pageShift ≤ 12) : kind.unit ∣ 4096 := by
  cases kind with
  | le => exact dvd_rfl
  | lx shift => exact two_pow_dvd_page h

/-- The entries for `limit` bytes whose pages start at the place `p`. -/
structure Mapped (kind : FlatKind) (p limit : ℕ) (r : List MapEntry × ℕ) : Prop where
  length : r.1.length = pageCount limit
  page : ∀ k < pageCount limit, p + 4096 * k < kind.placeLimit → ∃ e, r.1[k]? = some e ∧
    e.place kind = p + 4096 * k ∧ min 4096 (limit - 4096 * k) ≤ e.dataSize
  next : r.2 = kind.counter (p + kind.written limit)

theorem FlatKind.written_add (kind : FlatKind) {a : ℕ} (h : 4096 ∣ a) (b : ℕ) :
    kind.written (a + b) = a + kind.written b := by
  have hmod : (a + b) % 4096 = b % 4096 := by omega
  unfold FlatKind.written
  rw [hmod, Nat.add_assoc]

theorem FlatKind.written_of_dvd (kind : FlatKind) {a : ℕ} (h : 4096 ∣ a) : kind.written a = a := by
  simpa [FlatKind.written] using kind.written_add h 0

theorem FlatKind.unit_dvd_written {kind : FlatKind} (h : kind.pageShift ≤ 12) (size : ℕ) :
    kind.unit ∣ kind.written size := by
  have hpage := kind.unit_dvd_page h
  have hfull : 4096 ∣ size - size % 4096 := Nat.dvd_sub_mod size
  have hle := Nat.mod_le size 4096
  have hlt := Nat.mod_lt size (y := 4096) (by norm_num)
  have hrest : kind.unit ∣ size % 4096 + if size % 4096 = 0 then 0 else kind.padding (size % 4096) := by
    split_ifs with h0
    · rw [h0]
      exact dvd_zero _
    · cases kind with
      | le =>
          rw [FlatKind.padding_le, Nat.add_sub_cancel' hlt.le]
          exact dvd_rfl
      | lx shift =>
          rw [FlatKind.padding_lx, Nat.add_sub_cancel' (le_roundUpPwrof2 _ _)]
          exact dvd_roundUpPwrof2 _ _
  have hsum : kind.written size = (size - size % 4096) +
      (size % 4096 + if size % 4096 = 0 then 0 else kind.padding (size % 4096)) := by
    unfold FlatKind.written
    omega
  rw [hsum]
  exact dvd_add (hpage.trans hfull) hrest

/-- Full pages, and the pages behind them. -/
theorem Mapped.append {kind : FlatKind} {p a b : ℕ} {r s : List MapEntry × ℕ} (ha : 4096 ∣ a)
    (hr : Mapped kind p a r) (hs : Mapped kind (p + a) b s) :
    Mapped kind p (a + b) (r.1 ++ s.1, s.2) := by
  have hcount := pageCount_add ha b
  have hfull : pageCount a = a / 4096 := by simpa [pageCount_zero] using pageCount_add ha 0
  constructor
  · rw [List.length_append, hr.length, hs.length, hcount, hfull]
  · intro k hk hp
    rcases Nat.lt_or_ge k (a / 4096) with hka | hka
    · obtain ⟨e, he, hplace, hsize⟩ := hr.page k (hfull ▸ hka) hp
      refine ⟨e, ?_, hplace, ?_⟩
      · rw [List.getElem?_append_left (by rw [hr.length, hfull]; exact hka), he]
      · omega
    · obtain ⟨e, he, hplace, hsize⟩ := hs.page (k - a / 4096) (by omega) (by omega)
      refine ⟨e, ?_, by omega, by omega⟩
      rw [List.getElem?_append_right (by rw [hr.length, hfull]; exact hka), hr.length, hfull, he]
  · rw [hs.next, kind.written_add ha, Nat.add_assoc]

theorem place_ofPage (num : ℕ) : (MapEntry.ofPage num).place .le = (num % 2 ^ 24 - 1) * 4096 := by
  have hbytes : 2 ^ 16 * (num / 2 ^ 16 % 2 ^ 8) + 2 ^ 8 * (num / 2 ^ 8 % 2 ^ 8) + num % 2 ^ 8 =
      num % 2 ^ 24 := by omega
  rw [← hbytes, ← UInt8.toNat_ofNat' (n := num), ← UInt8.toNat_ofNat' (n := num / 2 ^ 8),
    ← UInt8.toNat_ofNat' (n := num / 2 ^ 16)]
  rfl

/-- The entry of one page. -/
theorem mapped_page {kind : FlatKind} (h : kind.pageShift ≤ 12) {p limit : ℕ} (hp : kind.unit ∣ p)
    (h0 : 0 < limit) (hlimit : limit ≤ 4096) :
    Mapped kind p limit (numberBuf kind (kind.counter p) limit) := by
  have hcount : pageCount limit = 1 := by
    unfold pageCount
    omega
  cases kind with
  | le =>
      have hp : 4096 ∣ p := hp
      have hbuf : numberBuf .le (FlatKind.counter .le p) limit =
          ([MapEntry.ofPage ((p / 4096 % 2 ^ 32 + 1) % 2 ^ 32)], (p / 4096 % 2 ^ 32 + 1) % 2 ^ 32) := by
        rw [numberBuf, hcount]
        rfl
      have hwritten : FlatKind.le.written limit = 4096 := by
        rw [FlatKind.written, FlatKind.padding_le]
        split_ifs <;> omega
      rw [hbuf]
      refine ⟨hcount.symm, fun k hk hlt =>
        ⟨MapEntry.ofPage ((p / 4096 % 2 ^ 32 + 1) % 2 ^ 32), ?_, ?_, ?_⟩, ?_⟩
      · rw [hcount, Nat.lt_one_iff] at hk
        rw [hk]
        rfl
      · rw [hcount, Nat.lt_one_iff] at hk
        rw [place_ofPage]
        rw [FlatKind.placeLimit_le] at hlt
        omega
      · exact min_le_left _ _
      · rw [hwritten, FlatKind.counter_le]
        dsimp only
        omega
  | lx shift =>
      have h : shift ≤ 12 := h
      have hdvd := two_pow_dvd_page h
      have hge := le_roundUpPwrof2 limit shift
      have hle := roundUpPwrof2_le hlimit hdvd
      have hbuf : numberBuf (.lx shift) (FlatKind.counter (.lx shift) p) limit =
          ([.lx (p % 2 ^ 32 / 2 ^ shift) (roundUpPwrof2 limit shift)],
            (p % 2 ^ 32 + roundUpPwrof2 limit shift) % 2 ^ 32) := by
        rw [numberBuf, hcount, numberLx, if_neg (by omega), Nat.mod_eq_of_lt (b := 2 ^ 16) (by omega)]
        rfl
      have hwritten : (FlatKind.lx shift).written limit = roundUpPwrof2 limit shift := by
        rw [FlatKind.written, FlatKind.padding_lx]
        split_ifs with hfull
        · rw [show limit = 4096 by omega, roundUpPwrof2_of_dvd hdvd]
        · rw [Nat.mod_eq_of_lt (by omega)]
          omega
      rw [hbuf]
      refine ⟨hcount.symm, fun k hk hlt =>
        ⟨.lx (p % 2 ^ 32 / 2 ^ shift) (roundUpPwrof2 limit shift), ?_, ?_, ?_⟩, ?_⟩
      · rw [hcount, Nat.lt_one_iff] at hk
        rw [hk]
        rfl
      · rw [hcount, Nat.lt_one_iff] at hk
        subst hk
        rw [FlatKind.placeLimit_lx] at hlt
        rw [Nat.mod_eq_of_lt (a := p) (by omega)]
        exact Nat.div_mul_cancel hp
      · exact (min_le_right _ _).trans ((Nat.sub_le _ _).trans hge)
      · rw [hwritten, FlatKind.counter_lx]
        dsimp only
        omega

theorem numberBuf_le (start limit : ℕ) :
    numberBuf .le start limit = numberLe (pageCount limit) start := rfl

theorem numberBuf_lx (shift start limit : ℕ) :
    numberBuf (.lx shift) start limit = numberLx shift (pageCount limit) start limit := rfl

theorem numberLe_succ (num start : ℕ) : numberLe (num + 1) start =
    ((numberLe 1 start).1 ++ (numberLe num (numberLe 1 start).2).1,
      (numberLe num (numberLe 1 start).2).2) := rfl

-- `rest` is a variable: the kernel must not evaluate a difference with 4096
theorem numberLx_succ (shift num start : ℕ) {limit rest : ℕ} (hlimit : 4096 < limit)
    (hrest : limit - 4096 = rest) : numberLx shift (num + 1) start limit =
      (.lx (start / 2 ^ shift) 4096 :: (numberLx shift num ((start + 4096) % 2 ^ 32) rest).1,
        (numberLx shift num ((start + 4096) % 2 ^ 32) rest).2) := by
  rw [numberLx, if_pos hlimit, hrest]

theorem numberLx_one (shift start : ℕ) {limit : ℕ} (hlimit : ¬ 4096 < limit) :
    numberLx shift 1 start limit = ([.lx (start / 2 ^ shift) (roundUpPwrof2 limit shift % 2 ^ 16)],
      (start + roundUpPwrof2 limit shift % 2 ^ 16) % 2 ^ 32) := by
  rw [numberLx, if_neg hlimit]

/-- A full page before the others. -/
theorem numberBuf_of_lt {kind : FlatKind} (h : kind.pageShift ≤ 12) (start : ℕ) {limit rest : ℕ}
    (hlimit : 4096 < limit) (hrest : limit - 4096 = rest) : numberBuf kind start limit =
      ((numberBuf kind start 4096).1 ++ (numberBuf kind (numberBuf kind start 4096).2 rest).1,
        (numberBuf kind (numberBuf kind start 4096).2 rest).2) := by
  have hcount : pageCount limit = pageCount rest + 1 := by
    unfold pageCount
    omega
  have hone : pageCount 4096 = 1 := by norm_num [pageCount]
  cases kind with
  | le =>
      rw [numberBuf_le, numberBuf_le, numberBuf_le, hcount, hone]
      exact numberLe_succ _ _
  | lx shift =>
      have h : shift ≤ 12 := h
      have hpage : roundUpPwrof2 4096 shift % 2 ^ 16 = 4096 := by
        rw [roundUpPwrof2_of_dvd (two_pow_dvd_page h)]
        norm_num
      rw [numberBuf_lx, numberBuf_lx, numberBuf_lx, hcount, hone, numberLx_succ _ _ _ hlimit hrest,
        numberLx_one _ _ (lt_irrefl _), hpage]
      rfl

theorem mapped_numberBuf {kind : FlatKind} (h : kind.pageShift ≤ 12) {p : ℕ} (hp : kind.unit ∣ p)
    (limit : ℕ) : Mapped kind p limit (numberBuf kind (kind.counter p) limit) := by
  induction limit using Nat.strong_induction_on generalizing p with
  | _ limit ih =>
    rcases Nat.eq_zero_or_pos limit with rfl | h0
    · refine ⟨?_, fun k hk => absurd hk (Nat.not_lt_zero k), ?_⟩
      · cases kind <;> rfl
      · cases kind <;> rfl
    rcases Nat.lt_or_ge 4096 limit with hlimit | hlimit
    · have hunit := kind.unit_dvd_page h
      have hpage := mapped_page h hp (Nat.zero_lt_succ 4095) le_rfl
      obtain ⟨rest, hsub⟩ : ∃ rest, limit - 4096 = rest := ⟨_, rfl⟩
      have hrest := ih rest (by omega) (p := p + 4096) (dvd_add hp hunit)
      rw [numberBuf_of_lt h _ hlimit hsub, hpage.next, kind.written_of_dvd dvd_rfl]
      have := hpage.append dvd_rfl hrest
      rwa [show 4096 + rest = limit by omega] at this
    · exact mapped_page h hp h0 hlimit

theorem mapped_numberGroup {kind : FlatKind} (h : kind.pageShift ≤ 12) {p : ℕ} (hp : kind.unit ∣ p)
    (full sizeleft : ℕ) : Mapped kind p sizeleft (numberGroup kind full (kind.counter p) sizeleft) := by
  induction full generalizing p sizeleft with
  | zero => exact mapped_numberBuf h hp sizeleft
  | succ full ih =>
      rw [numberGroup]
      split_ifs with hlt
      · have hdvd : 4096 ∣ pageMapBufSize := by decide
        have hbuf := mapped_numberBuf h hp pageMapBufSize
        have hrest := ih (p := p + pageMapBufSize) (dvd_add hp ((kind.unit_dvd_page h).trans hdvd))
          (sizeleft - pageMapBufSize)
        dsimp only
        rw [hbuf.next, kind.written_of_dvd hdvd]
        have := hbuf.append hdvd hrest
        rwa [Nat.add_sub_cancel' hlt.le] at this
      · exact mapped_numberBuf h hp sizeleft

/-! ### The map of every kind -/

/-- Whatever the shift, an entry gives a multiple of the unit below the limit. -/
structure MapEntry.Bounded (kind : FlatKind) (e : MapEntry) : Prop where
  lt : e.place kind < kind.placeLimit
  dvd : kind.unit ∣ e.place kind

theorem bounded_ofPage (num : ℕ) : (MapEntry.ofPage num).Bounded .le := by
  constructor
  · rw [place_ofPage, FlatKind.placeLimit_le]
    omega
  · rw [place_ofPage]
    exact Dvd.intro_left _ rfl

theorem bounded_lx {shift start : ℕ} (h : start < 2 ^ 32) (size : ℕ) :
    (MapEntry.lx (start / 2 ^ shift) size).Bounded (.lx shift) := by
  constructor
  · exact (Nat.div_mul_le_self start (2 ^ shift)).trans_lt h
  · exact Dvd.intro_left _ rfl

/-- The number of entries, and what holds of each of them and of the next number. -/
structure MapBounds (kind : FlatKind) (count : ℕ) (r : List MapEntry × ℕ) : Prop where
  length : r.1.length = count
  entry : ∀ e ∈ r.1, e.Bounded kind
  next : r.2 < 2 ^ 32

theorem MapBounds.append {kind : FlatKind} {a b : ℕ} {r s : List MapEntry × ℕ}
    (hr : MapBounds kind a r) (hs : MapBounds kind b s) :
    MapBounds kind (a + b) (r.1 ++ s.1, s.2) := by
  constructor
  · rw [List.length_append, hr.length, hs.length]
  · intro e he
    rcases List.mem_append.mp he with he | he
    · exact hr.entry e he
    · exact hs.entry e he
  · exact hs.next

theorem numberLe_bounds (num : ℕ) {start : ℕ} (h : start < 2 ^ 32) :
    MapBounds .le num (numberLe num start) := by
  induction num generalizing start with
  | zero => exact ⟨rfl, fun e he => absurd he List.not_mem_nil, h⟩
  | succ num ih =>
      obtain ⟨hlen, hentry, hnext⟩ := ih (Nat.mod_lt (start + 1) (Nat.two_pow_pos 32))
      refine ⟨congrArg (· + 1) hlen, fun e he => ?_, hnext⟩
      rcases List.mem_cons.mp he with rfl | he
      · exact bounded_ofPage _
      · exact hentry e he

theorem numberLx_bounds (shift num : ℕ) {start limit : ℕ} (h : start < 2 ^ 32)
    (hnum : num = pageCount limit) : MapBounds (.lx shift) num (numberLx shift num start limit) := by
  induction num generalizing start limit with
  | zero => exact ⟨rfl, fun e he => absurd he List.not_mem_nil, h⟩
  | succ num ih =>
      rcases Nat.lt_or_ge 4096 limit with hlimit | hlimit
      · obtain ⟨rest, hrest⟩ : ∃ rest, limit - 4096 = rest := ⟨_, rfl⟩
        have hcount : num = pageCount rest := by
          unfold pageCount at hnum ⊢
          omega
        obtain ⟨hlen, hentry, hnext⟩ := ih (Nat.mod_lt (start + 4096) (Nat.two_pow_pos 32)) hcount
        rw [numberLx_succ _ _ _ hlimit hrest]
        refine ⟨congrArg (· + 1) hlen, fun e he => ?_, hnext⟩
        rcases List.mem_cons.mp he with rfl | he
        · exact bounded_lx h _
        · exact hentry e he
      · have hone : num = 0 := by
          unfold pageCount at hnum
          omega
        subst hone
        rw [numberLx_one _ _ hlimit.not_gt]
        refine ⟨rfl, fun e he => ?_, Nat.mod_lt _ (Nat.two_pow_pos 32)⟩
        obtain rfl := List.mem_singleton.mp he
        exact bounded_lx h _

theorem numberBuf_bounds (kind : FlatKind) {start : ℕ} (h : start < 2 ^ 32) (limit : ℕ) :
    MapBounds kind (pageCount limit) (numberBuf kind start limit) := by
  cases kind with
  | le => exact numberLe_bounds _ h
  | lx shift => exact numberLx_bounds shift _ h rfl

theorem numberGroup_bounds (kind : FlatKind) (full : ℕ) {start : ℕ} (h : start < 2 ^ 32)
    (sizeleft : ℕ) : MapBounds kind (pageCount sizeleft) (numberGroup kind full start sizeleft) := by
  induction full generalizing start sizeleft with
  | zero => exact numberBuf_bounds kind h sizeleft
  | succ full ih =>
      rw [numberGroup]
      split_ifs with hlt
      · obtain ⟨rest, hrest⟩ : ∃ rest, sizeleft - pageMapBufSize = rest := ⟨_, rfl⟩
        have hcount : pageCount sizeleft = pageCount pageMapBufSize + pageCount rest := by
          have hdvd : 4096 ∣ pageMapBufSize := by decide
          rw [show sizeleft = pageMapBufSize + rest by omega, pageCount_add hdvd rest]
          rfl
        have hbuf := numberBuf_bounds kind h pageMapBufSize
        dsimp only
        rw [hrest, hcount]
        exact hbuf.append (ih hbuf.next rest)
      · exact numberBuf_bounds kind h sizeleft

section map

variable (kind : FlatKind) (gs : FlatGroups)

/-- The map of a group: without bytes there are no entries. -/
def groupMap (start size : ℕ) : List MapEntry × ℕ :=
  numberGroup kind (size / pageMapBufSize) start size

theorem pageMap_succ (n : ℕ) : pageMap kind gs (n + 1) =
    ((pageMap kind gs n).1 ++ (groupMap kind (pageMap kind gs n).2 (gs.group n).size).1,
      (groupMap kind (pageMap kind gs n).2 (gs.group n).size).2) := by
  have hstep : pageMap kind gs (n + 1) = writePageMap kind (gs.group n) (pageMap kind gs n) := by
    unfold pageMap
    rw [List.range_succ, List.foldl_append]
    rfl
  rw [hstep, writePageMap]
  split_ifs with h0
  · have hsize : (gs.group n).size = 0 := Nat.le_zero.mp (h0 ▸ gs.size_le n)
    have hnone : groupMap kind (pageMap kind gs n).2 0 = ([], (pageMap kind gs n).2) := by
      cases kind <;> rfl
    rw [hsize, hnone, List.append_nil]
  · rfl

theorem pageMap_bounds (n : ℕ) : MapBounds kind (firstPage gs n) (pageMap kind gs n) := by
  induction n with
  | zero => exact ⟨rfl, fun e he => absurd he List.not_mem_nil, Nat.two_pow_pos 32⟩
  | succ n ih =>
      rw [pageMap_succ, firstPage, startOf_succ]
      exact ih.append (numberGroup_bounds kind _ ih.next _)

theorem groupMap_bounds (g : ℕ) : MapBounds kind (pageCount (gs.group g).size)
    (groupMap kind (pageMap kind gs g).2 (gs.group g).size) :=
  numberGroup_bounds kind _ (pageMap_bounds kind gs g).next _

/-- The entries of a group in the whole map. -/
theorem pageMap_getElem? {n g k : ℕ} (hg : g < n) (hk : k < pageCount (gs.group g).size) :
    (pageMap kind gs n).1[firstPage gs g + k]? =
      (groupMap kind (pageMap kind gs g).2 (gs.group g).size).1[k]? := by
  have hblocks : ∀ n, (pageMap kind gs n).1 =
      blocks (fun i => (groupMap kind (pageMap kind gs i).2 (gs.group i).size).1) n := by
    intro n
    induction n with
    | zero => rfl
    | succ n ih => rw [pageMap_succ, ih, blocks_succ]
  rw [hblocks]
  exact getElem?_blocks (fun i => (groupMap_bounds kind gs i).length) hg hk

theorem objRecords_succ (n : ℕ) :
    objRecords gs (n + 1) = writeObjRecord (gs.group n) (objRecords gs n) := by
  unfold objRecords
  rw [List.range_succ, List.foldl_append]
  rfl

theorem objRecords_numpages (n : ℕ) : (objRecords gs n).2 = firstPage gs n := by
  induction n with
  | zero => rfl
  | succ n ih =>
      rw [objRecords_succ, writeObjRecord, firstPage, startOf_succ]
      split_ifs with h0
      · have hsize : (gs.group n).size = 0 := Nat.le_zero.mp (h0 ▸ gs.size_le n)
        rw [ih, hsize]
        rfl
      · rw [ih]
        rfl

theorem length_objRecords (n : ℕ) : (objRecords gs n).1.length = objIndex gs n := by
  induction n with
  | zero => rfl
  | succ n ih =>
      rw [objRecords_succ, writeObjRecord, objIndex, List.range_succ, List.filter_append,
        List.length_append, ← objIndex, ← ih]
      split_ifs with h0
      · simp [h0]
      · simp [h0]

/-- The record of a group. -/
theorem objRecords_getElem? {n g : ℕ} (hg : g < n) (h0 : (gs.group g).totalsize ≠ 0) :
    (objRecords gs n).1[objIndex gs g]? = some ⟨(gs.group g).totalsize, (gs.group g).linear,
      firstPage gs g + 1, pageCount (gs.group g).size⟩ := by
  induction n, hg using Nat.le_induction with
  | base =>
      rw [objRecords_succ, writeObjRecord, if_neg h0, ← length_objRecords, objRecords_numpages]
      exact List.getElem?_concat_length
  | succ n hgn ih =>
      have hlt := (List.getElem?_eq_some_iff.mp ih).1
      rw [objRecords_succ, writeObjRecord]
      split_ifs
      · exact ih
      · rw [List.getElem?_append_left hlt]
        exact ih

end map

end OpenWatcom.Wlink
