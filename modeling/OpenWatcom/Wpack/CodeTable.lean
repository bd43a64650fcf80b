import Mathlib.Data.List.GetD
import OpenWatcom.Lib.RunLengths

/-! # The table of code lengths

`WriteCodes` stores the lengths of the codes of 314 symbols as runs, an entry a byte, behind a byte with their number
less one.  `MakeShannonTrie` reads them back.  There may be more runs than the byte can count
(`roundTrip_iff`). -/

namespace OpenWatcom.Wpack

open RunLengths

/-- `NUM_CHARS`. -/
def numChars : ℕ := 314

/-- `MAX_CODE_BITS`. -/
def maxCodeBits : ℕ := 16

/-! ### The encoder -/

/-- `EncWriteByte`. -/
def encByte (n : ℕ) : ℕ := n % 256

/-- The first loop of `WriteCodes`, which counts the runs; nothing for a length that is too large. -/
def countLoop : List ℕ → ℕ → ℕ → ℕ → Option ℕ
  | [], _, _, num => some num
  | l :: len, prevlen, runlen, num =>
    if maxCodeBits < l then none
    else if l ≠ prevlen ∨ (prevlen = 0 ∧ runlen = 128) ∨ (prevlen ≠ 0 ∧ runlen = 8) then countLoop len l 1 (num + 1)
    else countLoop len prevlen (runlen + 1) num

/-- The entry of a run: 1 and the number of symbols without codes, or the number and the length of codes. -/
def entryByte (prevlen num : ℕ) : ℕ :=
  if prevlen = 0 then encByte (0x80 + num - 1) else encByte (((num - 1) <<< 4) + prevlen - 1)

/-- The second loop of `WriteCodes`, with the last block. -/
def emitLoop : List ℕ → ℕ → ℕ → List ℕ
  | [], prevlen, num => [entryByte prevlen num]
  | l :: len, prevlen, num =>
    if l ≠ prevlen ∨ (prevlen ≠ 0 ∧ num = 8) ∨ (prevlen = 0 ∧ num = 128) then
      entryByte prevlen num :: emitLoop len l 1
    else emitLoop len prevlen (num + 1)

/-- `WriteCodes`: the bytes that are written. -/
def writeCodes (len : List ℕ) : Option (List ℕ) :=
  (countLoop len 0xFF 0 0).map fun num => encByte (num - 1) :: emitLoop len (len.headD 0) 0

/-! ### The decoder -/

/-- The arrays `indicies` and `len`, with the number of symbols that have codes and the next symbol. -/
structure ShannonTable where
  indicies : ℕ → ℕ
  len : ℕ → ℕ
  num : ℕ
  curr : ℕ

/-- The loop over the symbols of an entry. -/
def codeEntry (entrylen : ℕ) : ℕ → ShannonTable → ShannonTable
  | 0, t => t
  | entrynum + 1, t => codeEntry entrylen entrynum
    { indicies := Function.update t.indicies t.num t.curr
      len := Function.update t.len t.curr entrylen
      num := t.num + 1
      curr := t.curr + 1 }

/-- The loop over the entries, with the bytes that are still to be read. -/
def readEntries : ℕ → List ℕ → ShannonTable → Option (ShannonTable × List ℕ)
  | 0, input, t => some (t, input)
  | _ + 1, [], _ => none
  | numcoded + 1, entry :: input, t =>
    if entry &&& 0x80 ≠ 0 then readEntries numcoded input { t with curr := t.curr + ((entry &&& 0x7F) + 1) }
    else readEntries numcoded input (codeEntry ((entry &&& 0xF) + 1) ((entry >>> 4) + 1) t)

/-- `MakeShannonTrie`, up to the assignment of the codes; `t` is what a table before it left. -/
def makeShannonTrie (input : List ℕ) (t : ShannonTable) : Option (ShannonTable × List ℕ) :=
  match input with
  | [] => none
  | numcoded :: input => readEntries (numcoded + 1) input { t with num := 0, curr := 0 }

/-! ### Lengths -/

/-- The lengths of the codes of all symbols, 0 where a symbol has none. -/
structure CodeLengths where
  len : List ℕ
  length_eq : len.length = numChars
  le : ∀ l ∈ len, l ≤ maxCodeBits

/-- The longest runs of an entry. -/
def runLimit (l : ℕ) : ℕ := if l = 0 then 128 else 8

/-- The symbols with codes, in their order. -/
def codedSymbols (len : List ℕ) : List ℕ := (List.range len.length).filter fun c => len.getD c 0 ≠ 0

/-- The table has the lengths: the symbols with codes are in `indicies`, and their lengths in `len`. -/
structure ReadsBack (t : ShannonTable) (len : List ℕ) : Prop where
  curr_eq : t.curr = len.length
  symbols : (List.range t.num).map t.indicies = codedSymbols len
  len_eq : ∀ c, len.getD c 0 ≠ 0 → t.len c = len.getD c 0

/-- What is written is read back, whatever comes behind it and whatever table was there before, and nothing else is
read. -/
def RoundTrip (len : List ℕ) : Prop :=
  ∃ bytes, writeCodes len = some bytes ∧
    ∀ rest t, ∃ t', makeShannonTrie (bytes ++ rest) t = some (t', rest) ∧ ReadsBack t' len

theorem one_le_runLimit (l : ℕ) : 1 ≤ runLimit l := by
  unfold runLimit
  split_ifs <;> decide

/-! ### What is written -/

theorem startsRun_iff (l prevlen num : ℕ) :
    (l ≠ prevlen ∨ (prevlen = 0 ∧ num = 128) ∨ (prevlen ≠ 0 ∧ num = 8)) ↔ l ≠ prevlen ∨ num = runLimit prevlen := by
  unfold runLimit
  split_ifs with h <;> simp [h]

/-- The loop counts the runs, the one it is in included. -/
theorem countLoop_eq {len : List ℕ} (h : ∀ l ∈ len, l ≤ maxCodeBits) (prevlen runlen num : ℕ) :
    countLoop len prevlen runlen (num + 1) = some (num + (runsFrom runLimit prevlen runlen len).length) := by
  induction len generalizing prevlen runlen num with
  | nil => rfl
  | cons l len ih =>
      obtain ⟨hl, hlen⟩ := List.forall_mem_cons.mp h
      rw [countLoop, if_neg (not_lt.mpr hl), if_congr (startsRun_iff l prevlen runlen) rfl rfl, runsFrom]
      split_ifs
      · rw [ih hlen, List.length_cons]
        congr 1
        omega
      · exact ih hlen _ _ _

/-- An entry is written for every run. -/
theorem emitLoop_eq (len : List ℕ) (prevlen num : ℕ) :
    emitLoop len prevlen num = (runsFrom runLimit prevlen num len).map fun r => entryByte r.1 r.2 := by
  induction len generalizing prevlen num with
  | nil => rfl
  | cons l len ih =>
      rw [emitLoop, if_congr ((or_congr_right or_comm).trans (startsRun_iff l prevlen num)) rfl rfl, runsFrom]
      split_ifs
      · rw [ih, List.map_cons]
      · exact ih _ _

theorem writeCodes_eq (lens : CodeLengths) :
    writeCodes lens.len = some (encByte ((runs runLimit lens.len).length - 1) ::
      (runs runLimit lens.len).map fun r => entryByte r.1 r.2) := by
  obtain ⟨len, hlength, hle⟩ := lens
  dsimp only
  obtain ⟨l, len, rfl⟩ := List.exists_cons_of_length_pos (by rw [hlength]; decide : 0 < len.length)
  obtain ⟨hl, hrest⟩ := List.forall_mem_cons.mp hle
  have hcount : countLoop (l :: len) 0xFF 0 0 = some (runsFrom runLimit l 1 len).length := by
    have hff : l ≠ 0xFF := by
      unfold maxCodeBits at hl
      omega
    rw [countLoop, if_neg (not_lt.mpr hl), if_pos (.inl hff), countLoop_eq hrest, Nat.zero_add]
  have hemit : emitLoop (l :: len) l 0 = emitLoop len l 1 := by
    rw [emitLoop, if_neg (by omega)]
  unfold writeCodes
  rw [hcount, List.headD_cons, hemit, emitLoop_eq]
  rfl

/-! ### What is read -/

theorem codedSymbols_append (len : List ℕ) (l : ℕ) :
    codedSymbols (len ++ [l]) = if l = 0 then codedSymbols len else codedSymbols len ++ [len.length] := by
  have hbefore : (List.range len.length).filter (fun c => (len ++ [l]).getD c 0 ≠ 0) = codedSymbols len := by
    apply List.filter_congr
    intro c hc
    rw [List.getD_append _ _ _ _ (List.mem_range.mp hc)]
  have hlast : (len ++ [l]).getD len.length 0 = l := by
    rw [List.getD_append_right _ _ _ _ le_rfl, Nat.sub_self, List.getD_cons_zero]
  unfold codedSymbols
  rw [List.length_append, List.length_singleton, List.range_succ, List.filter_append]
  rw [hbefore]
  unfold codedSymbols
  by_cases h : l = 0
  · rw [if_pos h, List.filter_singleton, hlast, h]
    simp
  · rw [if_neg h, List.filter_singleton, hlast]
    simp [h]

/-- A symbol without a code. -/
theorem ReadsBack.skip {t : ShannonTable} {len : List ℕ} (h : ReadsBack t len) (n : ℕ) :
    ReadsBack { t with curr := t.curr + n } (len ++ List.replicate n 0) := by
  induction n with
  | zero => simpa using h
  | succ n ih =>
      rw [List.replicate_succ', ← List.append_assoc]
      refine ⟨?_, ?_, fun c hc => ?_⟩
      · have := ih.curr_eq
        rw [List.length_append, List.length_singleton, ← this]
        exact (Nat.add_assoc ..).symm
      · rw [codedSymbols_append, if_pos rfl]
        exact ih.symbols
      · obtain hlt | hge := Nat.lt_or_ge c (len ++ List.replicate n 0).length
        · rw [List.getD_append _ _ _ _ hlt] at hc ⊢
          exact ih.len_eq c hc
        · rw [List.getD_append_right _ _ _ _ hge] at hc
          exact absurd (by cases c - (len ++ List.replicate n 0).length <;> simp) hc

/-- Symbols with codes of one length. -/
theorem ReadsBack.code {entrylen : ℕ} (hpos : entrylen ≠ 0) (n : ℕ) {t : ShannonTable} {len : List ℕ}
    (h : ReadsBack t len) : ReadsBack (codeEntry entrylen n t) (len ++ List.replicate n entrylen) := by
  induction n generalizing t len with
  | zero => simpa [codeEntry] using h
  | succ n ih =>
      have hstep : ReadsBack
          { indicies := Function.update t.indicies t.num t.curr
            len := Function.update t.len t.curr entrylen
            num := t.num + 1
            curr := t.curr + 1 } (len ++ [entrylen]) := by
        refine ⟨?_, ?_, fun c hc => ?_⟩
        · rw [List.length_append, List.length_singleton, h.curr_eq]
        · have hold : (List.range t.num).map (Function.update t.indicies t.num t.curr) = codedSymbols len := by
            rw [← h.symbols]
            apply List.map_congr_left
            intro i hi
            exact Function.update_of_ne (List.mem_range.mp hi).ne _ _
          dsimp only
          rw [List.range_succ, List.map_append, hold, codedSymbols_append, if_neg hpos, List.map_singleton,
            Function.update_self, h.curr_eq]
        · dsimp only
          obtain hlt | rfl | hgt := lt_trichotomy c t.curr
          · rw [h.curr_eq] at hlt
            rw [List.getD_append _ _ _ _ hlt] at hc ⊢
            rw [Function.update_of_ne (by rw [h.curr_eq]; exact hlt.ne)]
            exact h.len_eq c hc
          · rw [Function.update_self, h.curr_eq, List.getD_append_right _ _ _ _ le_rfl, Nat.sub_self,
              List.getD_cons_zero]
          · rw [h.curr_eq] at hgt
            rw [List.getD_append_right _ _ _ _ hgt.le] at hc
            obtain ⟨k, hk⟩ : ∃ k, c - len.length = k + 1 := ⟨c - len.length - 1, by omega⟩
            rw [hk, List.getD_cons_succ] at hc
            exact absurd List.getD_nil hc
      have hrest := ih hstep
      rw [List.append_assoc, List.singleton_append, ← List.replicate_succ] at hrest
      exact hrest

/-- An entry tells its run. -/
theorem entryByte_zero {num : ℕ} (h1 : 1 ≤ num) (hn : num ≤ 128) :
    entryByte 0 num &&& 0x80 ≠ 0 ∧ (entryByte 0 num &&& 0x7F) + 1 = num := by
  have hall : ∀ k < 128, encByte (0x80 + k) &&& 0x80 ≠ 0 ∧ encByte (0x80 + k) &&& 0x7F = k := by decide
  obtain ⟨k, rfl⟩ : ∃ k, num = k + 1 := ⟨num - 1, by omega⟩
  obtain ⟨hbit, hval⟩ := hall k (by omega)
  exact ⟨hbit, congrArg (· + 1) hval⟩

theorem entryByte_code {prevlen num : ℕ} (hp : 1 ≤ prevlen) (hp' : prevlen ≤ maxCodeBits) (h1 : 1 ≤ num)
    (hn : num ≤ 8) : entryByte prevlen num &&& 0x80 = 0 ∧ (entryByte prevlen num &&& 0xF) + 1 = prevlen ∧
      (entryByte prevlen num >>> 4) + 1 = num := by
  have hall : ∀ p < 16, ∀ k < 8, encByte ((k <<< 4) + p) &&& 0x80 = 0 ∧ encByte ((k <<< 4) + p) &&& 0xF = p ∧
      encByte ((k <<< 4) + p) >>> 4 = k := by decide
  obtain ⟨p, rfl⟩ : ∃ p, prevlen = p + 1 := ⟨prevlen - 1, by omega⟩
  obtain ⟨k, rfl⟩ : ∃ k, num = k + 1 := ⟨num - 1, by omega⟩
  have hbyte : entryByte (p + 1) (k + 1) = encByte ((k <<< 4) + p) := if_neg (Nat.succ_ne_zero p)
  unfold maxCodeBits at hp'
  obtain ⟨hbit, hlen, hnum⟩ := hall p (by omega) k (by omega)
  rw [hbyte]
  exact ⟨hbit, congrArg (· + 1) hlen, congrArg (· + 1) hnum⟩

/-- The entries of some runs are read as these runs. -/
theorem readEntries_eq (rs : List (ℕ × ℕ)) (hrs : ∀ r ∈ rs, r.1 ≤ maxCodeBits ∧ 1 ≤ r.2 ∧ r.2 ≤ runLimit r.1)
    (rest : List ℕ) {t : ShannonTable} {len : List ℕ} (h : ReadsBack t len) :
    ∃ t', readEntries rs.length (rs.map (fun r => entryByte r.1 r.2) ++ rest) t = some (t', rest) ∧
      ReadsBack t' (len ++ expand rs) := by
  induction rs generalizing t len with
  | nil => exact ⟨t, rfl, by simpa using h⟩
  | cons r rs ih =>
      obtain ⟨⟨hle, hpos, hlimit⟩, hrest⟩ := List.forall_mem_cons.mp hrs
      obtain ⟨l, n⟩ := r
      dsimp only at hle hpos hlimit
      rw [List.map_cons, List.cons_append, List.length_cons, readEntries, expand_cons, ← List.append_assoc]
      dsimp only
      unfold runLimit at hlimit
      by_cases hl : l = 0
      · subst hl
        rw [if_pos rfl] at hlimit
        obtain ⟨hbit, hnum⟩ := entryByte_zero hpos hlimit
        rw [if_pos hbit, hnum]
        exact ih hrest (h.skip n)
      · rw [if_neg hl] at hlimit
        obtain ⟨hbit, hlen, hnum⟩ := entryByte_code (Nat.pos_of_ne_zero hl) hle hpos hlimit
        rw [if_neg (not_not.mpr hbit), hlen, hnum]
        exact ih hrest (h.code hl n)

theorem runs_entries (lens : CodeLengths) :
    ∀ r ∈ runs runLimit lens.len, r.1 ≤ maxCodeBits ∧ 1 ≤ r.2 ∧ r.2 ≤ runLimit r.1 := fun r hr =>
  ⟨lens.le _ (mem_of_mem_runs one_le_runLimit hr), runs_bounds one_le_runLimit _ r hr⟩

theorem readsBack_start (t : ShannonTable) : ReadsBack { t with num := 0, curr := 0 } [] :=
  ⟨rfl, rfl, fun _ hc => absurd List.getD_nil hc⟩

theorem roundTrip_of_runs_le {lens : CodeLengths} (hfew : (runs runLimit lens.len).length ≤ 256) :
    RoundTrip lens.len := by
  obtain ⟨l, len, hlen⟩ := List.exists_cons_of_length_pos (by rw [lens.length_eq]; decide : 0 < lens.len.length)
  have hpos : 0 < (runs runLimit lens.len).length := by
    rw [hlen]
    exact runsFrom_length_pos l 1 len
  have hbyte : encByte ((runs runLimit lens.len).length - 1) + 1 = (runs runLimit lens.len).length := by
    unfold encByte
    omega
  refine ⟨_, writeCodes_eq lens, fun rest t => ?_⟩
  obtain ⟨t', hread, hback⟩ := readEntries_eq _ (runs_entries lens) rest (readsBack_start t)
  rw [List.nil_append, expand_runs] at hback
  refine ⟨t', ?_, hback⟩
  rw [List.cons_append, makeShannonTrie, hbyte]
  exact hread

/-- With more runs the number is cut to a byte, so that entries are left. -/
theorem not_roundTrip_of_runs (lens : CodeLengths) (hmany : 256 < (runs runLimit lens.len).length) :
    ¬ RoundTrip lens.len := by
  rintro ⟨bytes, hbytes, hread⟩
  rw [writeCodes_eq] at hbytes
  obtain rfl := Option.some.inj hbytes
  obtain ⟨t, hall, -⟩ := hread [] ⟨fun _ => 0, fun _ => 0, 0, 0⟩
  have hruns := runs_entries lens
  generalize runs runLimit lens.len = rs at hmany hruns hall
  have hcount : (rs.take (encByte (rs.length - 1) + 1)).length = encByte (rs.length - 1) + 1 := by
    unfold encByte
    rw [List.length_take]
    omega
  obtain ⟨t', hfew, -⟩ := readEntries_eq (rs.take (encByte (rs.length - 1) + 1))
    (fun r hr => hruns r (List.mem_of_mem_take hr))
    ((rs.drop (encByte (rs.length - 1) + 1)).map fun r => entryByte r.1 r.2)
    (readsBack_start ⟨fun _ => 0, fun _ => 0, 0, 0⟩)
  rw [← List.map_append, List.take_append_drop, hcount] at hfew
  rw [List.append_nil, makeShannonTrie, hfew] at hall
  have hnil := congrArg List.length (Prod.ext_iff.mp (Option.some.inj hall)).2
  rw [List.length_map, List.length_drop, List.length_nil] at hnil
  unfold encByte at hnil
  omega

/-- The table comes back if and only if its runs are at most 256. -/
theorem roundTrip_iff (lens : CodeLengths) : RoundTrip lens.len ↔ (runs runLimit lens.len).length ≤ 256 :=
  ⟨fun h => not_lt.mp fun hmany => not_roundTrip_of_runs lens hmany h, roundTrip_of_runs_le⟩

/-- Codes of eight and of nine bits in turns. -/
def alternating : CodeLengths where
  len := (List.range numChars).map fun c => 8 + c % 2
  length_eq := by rw [List.length_map, List.length_range]
  le := by
    intro l hl
    obtain ⟨c, -, rfl⟩ := List.mem_map.mp hl
    unfold maxCodeBits
    omega

theorem not_roundTrip_alternating : ¬ ∀ lens : CodeLengths, RoundTrip lens.len := fun h =>
  not_roundTrip_of_runs alternating (by decide +kernel) (h alternating)

end OpenWatcom.Wpack
