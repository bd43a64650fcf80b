import OpenWatcom.Wlink.IteratedData

/-! # Iterated data blocks

The blocks of the object format as a tree, what they expand to and the bytes they are written as, against the two ways
in which the linker reads them: `ProcIDBlock` and `CountIDBlock`. -/

namespace OpenWatcom.Wlink.Lidata

/-! ### The format -/

/-- Blocks, one behind the other: bytes or blocks that are repeated. -/
inductive Blocks where
  | nil
  | data (rep : ℕ) (bytes : List Byte) (next : Blocks)
  | nest (rep : ℕ) (inner : Blocks) (next : Blocks)

namespace Blocks

/-- The number of blocks, not counting nested ones. -/
def count : Blocks → ℕ
  | nil => 0
  | data _ _ next => next.count + 1
  | nest _ _ next => next.count + 1

/-- What is stored. -/
def expansion : Blocks → List Byte
  | nil => []
  | data rep bytes next => repeated rep bytes ++ next.expansion
  | nest rep inner next => repeated rep inner.expansion ++ next.expansion

/-- What is in the record. -/
def encode (wide : Bool) : Blocks → List Byte
  | nil => []
  | data rep bytes next =>
    leBytes (repSize wide) rep ++ (leBytes 2 0 ++ (leBytes 1 bytes.length ++ (bytes ++ next.encode wide)))
  | nest rep inner next =>
    leBytes (repSize wide) rep ++ (leBytes 2 inner.count ++ (inner.encode wide ++ next.encode wide))

/-- The numbers have room in their fields, and blocks that are nested are some. -/
def Valid (wide : Bool) : Blocks → Prop
  | nil => True
  | data rep bytes next => rep < 256 ^ repSize wide ∧ bytes.length < 256 ∧ next.Valid wide
  | nest rep inner next =>
    rep < 256 ^ repSize wide ∧ inner.count ≠ 0 ∧ inner.count < 2 ^ 16 ∧ inner.Valid wide ∧ next.Valid wide

/-- A block that is repeated 0 times is the last one, and nothing is behind it if `atEnd` holds of what is behind all
of them.  What is in it does not matter. -/
def Tame (atEnd : Prop) : Blocks → Prop
  | nil => True
  | data rep _ next => (rep = 0 → next = nil ∧ atEnd) ∧ next.Tame atEnd
  | nest rep inner next =>
    (rep = 0 → next = nil ∧ atEnd) ∧ (rep ≠ 0 → inner.Tame (next = nil ∧ atEnd)) ∧ next.Tame atEnd

/-- The first `j` blocks. -/
def take : ℕ → Blocks → Blocks
  | 0, _ => nil
  | _, nil => nil
  | j + 1, data rep bytes next => data rep bytes (next.take j)
  | j + 1, nest rep inner next => nest rep inner (next.take j)

/-- The others. -/
def drop : ℕ → Blocks → Blocks
  | 0, b => b
  | _, nil => nil
  | j + 1, data _ _ next => next.drop j
  | j + 1, nest _ _ next => next.drop j

end Blocks

/-! ### The counting code -/

/-- `CountIDBlock`: the length, in 32 bits, and the end. -/
def countIDBlock (wide : Bool) (record : List Byte) : ℕ → ℕ → Option (ℕ × ℕ)
  | 0, _ => none
  | depth + 1, buff =>
    (leAt record buff (repSize wide)).bind fun rep =>
      (leAt record (buff + repSize wide) 2).bind fun count =>
        if count = 0 then
          (leAt record (buff + repSize wide + 2) 1).map fun len =>
            (rep * len % 2 ^ 32, buff + repSize wide + 2 + (len + 1))
        else
          (times (fun r : ℕ × ℕ =>
            (countIDBlock wide record depth r.2).map fun c => ((r.1 + c.1) % 2 ^ 32, c.2))
            count (0, buff + repSize wide + 2)).map fun r => (rep * r.1 % 2 ^ 32, r.2)

/-- A block is counted. -/
def countStep (wide : Bool) (record : List Byte) (depth : ℕ) (r : ℕ × ℕ) : Option (ℕ × ℕ) :=
  (countIDBlock wide record depth r.2).map fun c => ((r.1 + c.1) % 2 ^ 32, c.2)

/-- The loop of `CalcLIDataLength`. -/
def calcLoop (wide : Bool) (record : List Byte) (depth : ℕ) : ℕ → ℕ × ℕ → Option ℕ
  | 0, _ => none
  | fuel + 1, r =>
    if r.2 < record.length then (countStep wide record depth r).bind (calcLoop wide record depth fuel) else some r.1

/-- `CalcLIDataLength`. -/
def calcLIDataLength (wide : Bool) (record : List Byte) (fuel : ℕ) : Option ℕ :=
  calcLoop wide record fuel fuel (0, 0)

/-- What `ProcComdat` keeps of the data of a record: its length and so many bytes at `ObjBuff`. -/
def comdatPiece (wide : Bool) (record : List Byte) (fuel : ℕ) (iterated : Bool) : Option (ℕ × List Byte) :=
  (if iterated then calcLIDataLength wide record fuel else some record.length).bind fun length =>
    if length ≤ record.length then some (length, record.take length) else none

/-! ### Numbers in the record -/

/-- The bytes at `p`. -/
def BytesAt (record : List Byte) (p : ℕ) (bytes : List Byte) : Prop :=
  ∃ post, record.drop p = bytes ++ post ∧ p ≤ record.length

variable {wide : Bool} {record : List Byte} {b : Blocks}

theorem BytesAt.split {p : ℕ} {l m : List Byte} (h : BytesAt record p (l ++ m)) :
    BytesAt record p l ∧ BytesAt record (p + l.length) m := by
  obtain ⟨post, hdrop, hp⟩ := h
  have hlen := congrArg List.length hdrop
  simp only [List.length_drop, List.length_append] at hlen
  refine ⟨⟨m ++ post, by rw [hdrop, List.append_assoc], hp⟩, post, ?_, by omega⟩
  rw [← List.drop_drop, hdrop, List.append_assoc, List.drop_left]

theorem BytesAt.le {p : ℕ} {l : List Byte} (h : BytesAt record p l) : p + l.length ≤ record.length := by
  obtain ⟨post, hdrop, hp⟩ := h
  have hlen := congrArg List.length hdrop
  simp only [List.length_drop, List.length_append] at hlen
  omega

theorem BytesAt.take {p : ℕ} {l : List Byte} (h : BytesAt record p l) : (record.drop p).take l.length = l := by
  obtain ⟨post, hdrop, -⟩ := h
  rw [hdrop, List.take_left]

theorem BytesAt.leAt {p k n : ℕ} (h : BytesAt record p (leBytes k n)) (hn : n < 256 ^ k) :
    leAt record p k = some n := by
  have hle := h.le
  have htake := h.take
  rw [leBytes_length] at hle htake
  unfold Lidata.leAt
  rw [if_pos hle, htake, leVal_leBytes hn]

theorem leAt_end (record : List Byte) {k : ℕ} (hk : 0 < k) : leAt record record.length k = none := if_neg (by omega)

/-! ### Expansion -/

namespace Blocks

theorem Tame.mono {P Q : Prop} (hPQ : P → Q) (h : b.Tame P) : b.Tame Q := by
  induction b generalizing P Q with
  | nil => trivial
  | data rep bytes next ih => exact ⟨fun h0 => ⟨(h.1 h0).1, hPQ (h.1 h0).2⟩, ih hPQ h.2⟩
  | nest rep inner next ih ih' =>
      exact ⟨fun h0 => ⟨(h.1 h0).1, hPQ (h.1 h0).2⟩, fun h0 => ih (fun hP => ⟨hP.1, hPQ hP.2⟩) (h.2.1 h0),
        ih' hPQ h.2.2⟩

theorem eq_nil_of_count (h : b.count = 0) : b = nil := by
  cases b with
  | nil => rfl
  | data _ _ _ => exact nomatch h
  | nest _ _ _ => exact nomatch h

theorem encode_length_pos (wide : Bool) (h : b ≠ nil) : 0 < (b.encode wide).length := by
  have := repSize_pos wide
  cases b with
  | nil => exact absurd rfl h
  | data _ _ _ =>
      rw [encode, List.length_append, leBytes_length]
      omega
  | nest _ _ _ =>
      rw [encode, List.length_append, leBytes_length]
      omega

/-- The fields of a block of bytes. -/
theorem fields_data {rep : ℕ} {bytes : List Byte} {next : Blocks} {p : ℕ} (hv : (data rep bytes next).Valid wide)
    (h : BytesAt record p ((data rep bytes next).encode wide)) :
    leAt record p (repSize wide) = some rep ∧ leAt record (p + repSize wide) 2 = some 0 ∧
      leAt record (p + repSize wide + 2) 1 = some bytes.length ∧
      p + repSize wide + 3 + bytes.length ≤ record.length ∧
      (record.drop (p + repSize wide + 3)).take bytes.length = bytes ∧
      BytesAt record (p + repSize wide + 3 + bytes.length) (next.encode wide) := by
  obtain ⟨hrep, hlen, -⟩ := hv
  obtain ⟨h1, h⟩ := h.split
  obtain ⟨h2, h⟩ := h.split
  obtain ⟨h3, h⟩ := h.split
  obtain ⟨h4, h5⟩ := h.split
  rw [leBytes_length] at h2 h3 h4 h5
  rw [leBytes_length] at h3 h4 h5
  rw [leBytes_length] at h4 h5
  exact ⟨h1.leAt hrep, h2.leAt (by decide), h3.leAt (by rwa [pow_one]), h4.le, h4.take, h5⟩

/-- The fields of nested blocks. -/
theorem fields_nest {rep : ℕ} {inner next : Blocks} {p : ℕ} (hv : (nest rep inner next).Valid wide)
    (h : BytesAt record p ((nest rep inner next).encode wide)) :
    leAt record p (repSize wide) = some rep ∧ leAt record (p + repSize wide) 2 = some inner.count ∧
      BytesAt record (p + repSize wide + 2) (inner.encode wide) ∧
      BytesAt record (p + repSize wide + 2 + (inner.encode wide).length) (next.encode wide) := by
  obtain ⟨hrep, -, hcount, -, -⟩ := hv
  obtain ⟨h1, h⟩ := h.split
  obtain ⟨h2, h⟩ := h.split
  obtain ⟨h3, h4⟩ := h.split
  rw [leBytes_length] at h2 h3 h4
  rw [leBytes_length] at h3 h4
  exact ⟨h1.leAt hrep, h2.leAt hcount, h3, h4⟩

theorem encode_data_length (rep : ℕ) (bytes : List Byte) (next : Blocks) :
    ((data rep bytes next).encode wide).length = repSize wide + 3 + bytes.length + (next.encode wide).length := by
  simp only [encode, List.length_append, leBytes_length]
  omega

theorem encode_nest_length (rep : ℕ) (inner next : Blocks) :
    ((nest rep inner next).encode wide).length =
      repSize wide + 2 + (inner.encode wide).length + (next.encode wide).length := by
  simp only [encode, List.length_append, leBytes_length]
  omega

/-- Blocks are expanded if none is repeated 0 times but at the end of the record. -/
theorem blocksAt_encode {p : ℕ} (hv : b.Valid wide) (h : BytesAt record p (b.encode wide))
    (ht : b.Tame (p + (b.encode wide).length = record.length)) :
    BlocksAt wide record b.count p (p + (b.encode wide).length) b.expansion := by
  induction b generalizing p with
  | nil => exact .nil p
  | data rep bytes next ih =>
      obtain ⟨hrep, hcount, hlen, hin, htake, hnext⟩ := fields_data hv h
      rw [encode_data_length] at ht ⊢
      by_cases h0 : rep = 0
      · subst h0
        obtain ⟨rfl, hend⟩ := ht.1 rfl
        rw [hend]
        exact .stop hrep (.nil _)
      · have hsum : p + (repSize wide + 3 + bytes.length + (next.encode wide).length) =
            p + repSize wide + 3 + bytes.length + (next.encode wide).length := by omega
        rw [hsum] at ht ⊢
        have hstep := BlocksAt.data hrep h0 hcount hlen hin (ih hv.2.2 hnext ht.2)
        rwa [htake] at hstep
  | nest rep inner next ih ih' =>
      obtain ⟨hrep, hcount, hinner, hnext⟩ := fields_nest hv h
      rw [encode_nest_length] at ht ⊢
      by_cases h0 : rep = 0
      · subst h0
        obtain ⟨rfl, hend⟩ := ht.1 rfl
        rw [hend]
        exact .stop hrep (.nil _)
      · have hsum : p + (repSize wide + 2 + (inner.encode wide).length + (next.encode wide).length) =
            p + repSize wide + 2 + (inner.encode wide).length + (next.encode wide).length := by omega
        rw [hsum] at ht ⊢
        have hlast : inner.Tame (p + repSize wide + 2 + (inner.encode wide).length = record.length) := by
          refine (ht.2.1 h0).mono ?_
          rintro ⟨rfl, hend⟩
          exact hend
        exact .nest hrep h0 hcount hv.2.1 (ih hv.2.2.2.1 hinner hlast) (ih' hv.2.2.2.2 hnext ht.2.2)

end Blocks

/-- Nothing is read at the end of the record. -/
theorem BlocksAt.at_end {k e : ℕ} {E : List Byte} (h : BlocksAt wide record k record.length e E) :
    k = 0 ∧ e = record.length := by
  have hnone := leAt_end record (repSize_pos wide)
  cases h with
  | nil => exact ⟨rfl, rfl⟩
  | stop hrep _ => exact nomatch hnone.symm.trans hrep
  | data hrep _ _ _ _ _ => exact nomatch hnone.symm.trans hrep
  | nest hrep _ _ _ _ _ => exact nomatch hnone.symm.trans hrep

namespace Blocks

/-- Blocks that are read to their end are expanded, and reading ends there or at the end of the record. -/
theorem tame_of_blocksAt {p e : ℕ} {E : List Byte} (hv : b.Valid wide) (h : BytesAt record p (b.encode wide))
    (hat : BlocksAt wide record b.count p e E) :
    (e = p + (b.encode wide).length ∨ e = record.length) ∧
      (e = p + (b.encode wide).length → b.Tame (p + (b.encode wide).length = record.length)) := by
  induction b generalizing p e E with
  | nil =>
      cases hat
      exact ⟨.inl rfl, fun _ => trivial⟩
  | data rep bytes next ih =>
      obtain ⟨hrep, hcount, hlen, hin, htake, hnext⟩ := fields_data hv h
      have hsum : p + ((data rep bytes next).encode wide).length =
          p + repSize wide + 3 + bytes.length + (next.encode wide).length := by
        rw [encode_data_length]
        omega
      rw [hsum]
      cases hat with
      | stop hrep' hrest =>
          obtain rfl := Option.some.inj (hrep.symm.trans hrep')
          obtain ⟨hzero, rfl⟩ := hrest.at_end
          obtain rfl := eq_nil_of_count hzero
          exact ⟨.inr rfl, fun hend => ⟨fun _ => ⟨rfl, hend.symm⟩, trivial⟩⟩
      | data hrep' hpos hcount' hlen' hin' hrest =>
          obtain rfl := Option.some.inj (hrep.symm.trans hrep')
          obtain rfl := Option.some.inj (hlen.symm.trans hlen')
          obtain ⟨hend, htame⟩ := ih hv.2.2 hnext hrest
          exact ⟨hend, fun he => ⟨fun h0 => absurd h0 hpos, htame he⟩⟩
      | nest hrep' hpos hcount' hsome hinner hrest =>
          exact absurd (Option.some.inj (hcount.symm.trans hcount')).symm hsome
  | nest rep inner next ih ih' =>
      obtain ⟨hrep, hcount, hinner, hnext⟩ := fields_nest hv h
      have hsum : p + ((nest rep inner next).encode wide).length =
          p + repSize wide + 2 + (inner.encode wide).length + (next.encode wide).length := by
        rw [encode_nest_length]
        omega
      rw [hsum]
      cases hat with
      | stop hrep' hrest =>
          obtain rfl := Option.some.inj (hrep.symm.trans hrep')
          obtain ⟨hzero, rfl⟩ := hrest.at_end
          obtain rfl := eq_nil_of_count hzero
          exact ⟨.inr rfl, fun hend => ⟨fun _ => ⟨rfl, hend.symm⟩, fun h0 => absurd rfl h0, trivial⟩⟩
      | data hrep' hpos hcount' hlen' hin' hrest =>
          exact absurd (Option.some.inj (hcount.symm.trans hcount')) hv.2.1
      | nest hrep' hpos hcount' hsome hinner' hrest =>
          obtain rfl := Option.some.inj (hrep.symm.trans hrep')
          obtain rfl := Option.some.inj (hcount.symm.trans hcount')
          obtain ⟨hm, htame⟩ := ih hv.2.2.2.1 hinner hinner'
          obtain rfl | rfl := hm
          · obtain ⟨hend, htame'⟩ := ih' hv.2.2.2.2 hnext hrest
            refine ⟨hend, fun he => ⟨fun h0 => absurd h0 hpos, fun _ => (htame rfl).mono fun hlast => ?_, htame' he⟩⟩
            -- Nothing is behind the nested blocks.
            have hnil : next = nil := by
              by_contra hne
              have := encode_length_pos wide hne
              have := hnext.le
              omega
            subst hnil
            exact ⟨rfl, hlast⟩
          · obtain ⟨hzero, rfl⟩ := hrest.at_end
            obtain rfl := eq_nil_of_count hzero
            refine ⟨.inr rfl, fun he => ⟨fun h0 => absurd h0 hpos, fun _ => ?_, trivial⟩⟩
            exact (htame he).mono fun hlast => ⟨rfl, hlast⟩

/-! ### Counting -/

/-- The length is counted, in 32 bits. -/
theorem countBlocks_encode {p : ℕ} (hv : b.Valid wide) (h : BytesAt record p (b.encode wide)) :
    ∃ D, ∀ depth, D ≤ depth → ∀ t < 2 ^ 32, times (countStep wide record depth) b.count (t, p) =
      some ((t + b.expansion.length) % 2 ^ 32, p + (b.encode wide).length) := by
  induction b generalizing p with
  | nil =>
      refine ⟨0, fun depth _ t ht => ?_⟩
      have hmod : (t + List.length (nil : Blocks).expansion) % 2 ^ 32 = t := Nat.mod_eq_of_lt ht
      rw [hmod]
      rfl
  | data rep bytes next ih =>
      obtain ⟨hrep, hcount, hlen, hin, htake, hnext⟩ := fields_data hv h
      obtain ⟨D, hD⟩ := ih hv.2.2 hnext
      refine ⟨max D 1, fun depth hdepth t ht => ?_⟩
      obtain ⟨d, rfl⟩ : ∃ d, depth = d + 1 := ⟨depth - 1, by omega⟩
      have hblock : countIDBlock wide record (d + 1) p =
          some (rep * bytes.length % 2 ^ 32, p + repSize wide + 2 + (bytes.length + 1)) := by
        rw [countIDBlock, hrep, Option.bind_some, hcount, Option.bind_some, if_pos rfl, hlen, Option.map_some]
      have hend : p + repSize wide + 2 + (bytes.length + 1) = p + repSize wide + 3 + bytes.length := by omega
      have hstep : countStep wide record (d + 1) (t, p) =
          some ((t + rep * bytes.length) % 2 ^ 32, p + repSize wide + 3 + bytes.length) := by
        rw [countStep, hblock, Option.map_some, hend, Nat.add_mod_mod]
      have hsum : p + ((data rep bytes next).encode wide).length =
          p + repSize wide + 3 + bytes.length + (next.encode wide).length := by
        rw [encode_data_length]
        omega
      rw [count, times, hstep, Option.bind_some, hD (d + 1) (by omega) _ (Nat.mod_lt _ (Nat.two_pow_pos 32)), hsum,
        Nat.mod_add_mod, expansion, List.length_append, repeated_length, Nat.add_assoc t]
  | nest rep inner next ih ih' =>
      obtain ⟨hrep, hcount, hinner, hnext⟩ := fields_nest hv h
      obtain ⟨D, hD⟩ := ih hv.2.2.2.1 hinner
      obtain ⟨D', hD'⟩ := ih' hv.2.2.2.2 hnext
      refine ⟨max (D + 1) D', fun depth hdepth t ht => ?_⟩
      obtain ⟨d, rfl⟩ : ∃ d, depth = d + 1 := ⟨depth - 1, by omega⟩
      have hloop := hD d (by omega) 0 (Nat.two_pow_pos 32)
      rw [Nat.zero_add] at hloop
      have hblock : countIDBlock wide record (d + 1) p =
          some (rep * inner.expansion.length % 2 ^ 32, p + repSize wide + 2 + (inner.encode wide).length) := by
        rw [countIDBlock, hrep, Option.bind_some, hcount, Option.bind_some, if_neg hv.2.1]
        refine (congrArg (Option.map _) hloop).trans ?_
        rw [Option.map_some, Nat.mul_mod_mod]
      have hstep : countStep wide record (d + 1) (t, p) =
          some ((t + rep * inner.expansion.length) % 2 ^ 32, p + repSize wide + 2 + (inner.encode wide).length) := by
        rw [countStep, hblock, Option.map_some, Nat.add_mod_mod]
      have hsum : p + ((nest rep inner next).encode wide).length =
          p + repSize wide + 2 + (inner.encode wide).length + (next.encode wide).length := by
        rw [encode_nest_length]
        omega
      rw [count, times, hstep, Option.bind_some, hD' (d + 1) (by omega) _ (Nat.mod_lt _ (Nat.two_pow_pos 32)), hsum,
        Nat.mod_add_mod, expansion, List.length_append, repeated_length, Nat.add_assoc t]

/-! ### Parts of the blocks -/

theorem take_nil (j : ℕ) : nil.take j = nil := by cases j <;> rfl

theorem drop_nil (j : ℕ) : nil.drop j = nil := by cases j <;> rfl

theorem encode_take_drop (b : Blocks) (j : ℕ) : b.encode wide = (b.take j).encode wide ++ (b.drop j).encode wide := by
  induction b generalizing j with
  | nil => rw [take_nil, drop_nil, encode, List.nil_append]
  | data rep bytes next ih =>
      cases j with
      | zero => rfl
      | succ j =>
          rw [take, drop, encode, encode, ih j]
          simp only [List.append_assoc]
  | nest rep inner next _ ih =>
      cases j with
      | zero => rfl
      | succ j =>
          rw [take, drop, encode, encode, ih j]
          simp only [List.append_assoc]

theorem take_count {j : ℕ} (h : j ≤ b.count) : (b.take j).count = j := by
  induction b generalizing j with
  | nil =>
      rw [Nat.le_zero.mp h]
      rfl
  | data rep bytes next ih =>
      cases j with
      | zero => rfl
      | succ j => rw [take, count, ih (Nat.succ_le_succ_iff.mp h)]
  | nest rep inner next _ ih =>
      cases j with
      | zero => rfl
      | succ j => rw [take, count, ih (Nat.succ_le_succ_iff.mp h)]

theorem take_count_self (b : Blocks) : b.take b.count = b := by
  induction b with
  | nil => rfl
  | data rep bytes next ih => rw [count, take, ih]
  | nest rep inner next _ ih => rw [count, take, ih]

theorem Valid.take (hv : b.Valid wide) (j : ℕ) : (b.take j).Valid wide := by
  induction b generalizing j with
  | nil =>
      rw [take_nil]
      trivial
  | data rep bytes next ih =>
      cases j with
      | zero => trivial
      | succ j => exact ⟨hv.1, hv.2.1, ih hv.2.2 j⟩
  | nest rep inner next _ ih =>
      cases j with
      | zero => trivial
      | succ j => exact ⟨hv.1, hv.2.1, hv.2.2.1, hv.2.2.2.1, ih hv.2.2.2.2 j⟩

theorem Tame.take {P : Prop} (h : b.Tame P) (j : ℕ) : (b.take j).Tame (b.drop j = nil ∧ P) := by
  induction b generalizing j with
  | nil =>
      rw [take_nil]
      trivial
  | data rep bytes next ih =>
      cases j with
      | zero => trivial
      | succ j =>
          refine ⟨fun h0 => ?_, ih h.2 j⟩
          obtain ⟨rfl, hP⟩ := h.1 h0
          exact ⟨take_nil j, drop_nil j, hP⟩
  | nest rep inner next _ ih =>
      cases j with
      | zero => trivial
      | succ j =>
          refine ⟨fun h0 => ?_, fun h0 => (h.2.1 h0).mono ?_, ih h.2.2 j⟩
          · obtain ⟨rfl, hP⟩ := h.1 h0
            exact ⟨take_nil j, drop_nil j, hP⟩
          · rintro ⟨rfl, hP⟩
            exact ⟨take_nil j, drop_nil j, hP⟩

theorem bytesAt_take (wide : Bool) (b : Blocks) (j : ℕ) : BytesAt (b.encode wide) 0 ((b.take j).encode wide) :=
  ⟨(b.drop j).encode wide, by rw [List.drop_zero]; exact encode_take_drop b j, Nat.zero_le _⟩

end Blocks

/-! ### Records -/

/-- What calls of `PutInfo` do to the storage. -/
def storeAll (vm : ℕ → Byte) (puts : List (ℕ × List Byte)) : ℕ → Byte := puts.foldl (fun vm c => overlay vm c.1 c.2) vm

theorem InOrder.storeAll {d : ℕ} {L : List (ℕ × List Byte)} (h : InOrder d L) (vm : ℕ → Byte) :
    storeAll vm L = overlay vm d (L.flatMap Prod.snd) := by
  induction L generalizing d vm with
  | nil => exact (overlay_nil vm d).symm
  | cons c L ih =>
      obtain ⟨o, l⟩ := c
      obtain ⟨rfl, h⟩ := h
      rw [List.flatMap_cons, ← overlay_append]
      exact ih h (overlay vm o l)

theorem Puts.storeAll {d : ℕ} {s : Loading} {E : List Byte} (h : Puts (.start d) E s) (vm : ℕ → Byte) :
    storeAll vm s.puts = overlay vm d E := by
  obtain ⟨-, L, hL, hin, rfl⟩ := h
  have hputs : s.puts = L := hL
  rw [hputs]
  exact hin.storeAll vm

/-- Blocks that are well formed. -/
structure ValidBlocks (wide : Bool) where
  blocks : Blocks
  valid : blocks.Valid wide

/-- The first `j` blocks are expanded from the start of the record on, and reading ends behind them. -/
def Expanded (wide : Bool) (b : Blocks) (fuel j : ℕ) : Prop :=
  ∀ d, ∃ s, times (idBlock wide (b.encode wide) fuel) j (.start d, 0) = some (s, ((b.take j).encode wide).length) ∧
    ∀ vm, storeAll vm s.puts = overlay vm d (b.take j).expansion

/-- The first `j` blocks are counted, and reading ends behind them. -/
def Counted (wide : Bool) (b : Blocks) (fuel j : ℕ) : Prop :=
  times (countStep wide (b.encode wide) fuel) j (0, 0) =
    some ((b.take j).expansion.length, ((b.take j).encode wide).length)

/-- A LIDATA record with the blocks: they are stored as they expand, the number of bytes is what `CalcLIDataLength`
gives, and behind every block both go on with the next one. -/
def LidataRight (wide : Bool) (b : Blocks) (fuel : ℕ) : Prop :=
  (∀ d, ∃ s, doLIData wide (b.encode wide) fuel fuel (.start d) 0 = some s ∧
    ∀ vm, storeAll vm s.puts = overlay vm d b.expansion) ∧
    calcLIDataLength wide (b.encode wide) fuel = some b.expansion.length ∧
    ∀ j ≤ b.count, Expanded wide b fuel j ∧ Counted wide b fuel j

/-- A COMDAT record with the blocks: what is kept is what they expand to, and behind every block counting goes on with
the next one. -/
def ComdatRight (wide : Bool) (b : Blocks) (fuel : ℕ) : Prop :=
  comdatPiece wide (b.encode wide) fuel true = some (b.expansion.length, b.expansion) ∧
    ∀ j ≤ b.count, Counted wide b fuel j

/-- With all fuels from some on. -/
def IteratedRight (comdat wide : Bool) (b : Blocks) : Prop :=
  ∃ D, ∀ fuel, D ≤ fuel → if comdat then ComdatRight wide b fuel else LidataRight wide b fuel

variable {comdat : Bool}

theorem calcLoop_of_times {depth k t : ℕ} {r : ℕ × ℕ}
    (h : times (countStep wide record depth) k r = some (t, record.length)) {fuel : ℕ} (hfuel : k < fuel) :
    calcLoop wide record depth fuel r = some t := by
  induction k generalizing r fuel with
  | zero =>
      obtain ⟨fuel, rfl⟩ : ∃ f, fuel = f + 1 := ⟨fuel - 1, by omega⟩
      obtain rfl := Option.some.inj h
      rw [calcLoop, if_neg (lt_irrefl _)]
  | succ k ih =>
      obtain ⟨fuel, rfl⟩ : ∃ f, fuel = f + 1 := ⟨fuel - 1, by omega⟩
      obtain ⟨r', hr', hrest⟩ := times_succ_some h
      have hlt : r.2 < record.length := by
        obtain ⟨c, hc, -⟩ := Option.map_eq_some_iff.mp hr'
        cases depth with
        | zero => exact nomatch hc
        | succ depth =>
            obtain ⟨rep, hrep, -⟩ := Option.bind_eq_some_iff.mp hc
            have := leAt_le hrep
            have := repSize_pos wide
            omega
      rw [calcLoop, if_pos hlt, hr', Option.bind_some]
      exact ih hrest (by omega)

namespace Blocks

theorem expansion_take_le (b : Blocks) (j : ℕ) : (b.take j).expansion.length ≤ b.expansion.length := by
  induction b generalizing j with
  | nil => rw [take_nil]
  | data rep bytes next ih =>
      cases j with
      | zero => exact Nat.zero_le _
      | succ j =>
          rw [take, expansion, expansion, List.length_append, List.length_append]
          exact Nat.add_le_add_left (ih j) _
  | nest rep inner next _ ih =>
      cases j with
      | zero => exact Nat.zero_le _
      | succ j =>
          rw [take, expansion, expansion, List.length_append, List.length_append]
          exact Nat.add_le_add_left (ih j) _

/-- Below 4 GB all is counted. -/
theorem counted (hv : b.Valid wide) (hlt : b.expansion.length < 2 ^ 32) :
    ∃ D, ∀ fuel, D ≤ fuel → ∀ j ≤ b.count, Counted wide b fuel j := by
  have hone : ∀ j, j ≤ b.count → ∃ D, ∀ fuel, D ≤ fuel → Counted wide b fuel j := by
    intro j hj
    obtain ⟨D, hD⟩ := countBlocks_encode (hv.take j) (bytesAt_take wide b j)
    refine ⟨D, fun fuel hfuel => ?_⟩
    have hrun := hD fuel hfuel 0 (Nat.two_pow_pos 32)
    have hmod := Nat.mod_eq_of_lt ((expansion_take_le b j).trans_lt hlt)
    rwa [take_count hj, Nat.zero_add, Nat.zero_add, hmod] at hrun
  choose! D hD using hone
  refine ⟨(Finset.range (b.count + 1)).sup D, fun fuel hfuel j hj => hD j hj fuel ?_⟩
  exact (Finset.le_sup (f := D) (Finset.mem_range.mpr (Nat.lt_succ_of_le hj))).trans hfuel

theorem calcLIDataLength_eq (hv : b.Valid wide) :
    ∃ D, ∀ fuel, D ≤ fuel → calcLIDataLength wide (b.encode wide) fuel = some (b.expansion.length % 2 ^ 32) := by
  have hat := bytesAt_take wide b b.count
  rw [take_count_self] at hat
  obtain ⟨D, hD⟩ := countBlocks_encode hv hat
  refine ⟨max D (b.count + 1), fun fuel hfuel => ?_⟩
  have hrun := hD fuel (by omega) 0 (Nat.two_pow_pos 32)
  rw [Nat.zero_add, Nat.zero_add] at hrun
  exact calcLoop_of_times hrun (by omega)

/-- Tame blocks are expanded. -/
theorem expanded (hv : b.Valid wide) (ht : b.Tame True) :
    ∃ D, ∀ fuel, D ≤ fuel → ∀ j ≤ b.count, Expanded wide b fuel j := by
  have hone : ∀ j, j ≤ b.count → ∃ D, ∀ fuel, D ≤ fuel → Expanded wide b fuel j := by
    intro j hj
    have hlast : (b.take j).Tame (0 + ((b.take j).encode wide).length = (b.encode wide).length) := by
      refine (ht.take j).mono ?_
      rintro ⟨hnil, -⟩
      rw [encode_take_drop b j, hnil, encode, List.append_nil, Nat.zero_add]
    have hat := blocksAt_encode (hv.take j) (bytesAt_take wide b j) hlast
    rw [take_count hj, Nat.zero_add] at hat
    obtain ⟨D, hD⟩ := hat.run
    refine ⟨D, fun fuel hfuel d => ?_⟩
    obtain ⟨s, hput, hs⟩ := hD fuel hfuel (.start d)
    exact ⟨s, hs, hput.storeAll⟩
  choose! D hD using hone
  refine ⟨(Finset.range (b.count + 1)).sup D, fun fuel hfuel j hj => hD j hj fuel ?_⟩
  exact (Finset.le_sup (f := D) (Finset.mem_range.mpr (Nat.lt_succ_of_le hj))).trans hfuel

/-- Blocks that are expanded are tame. -/
theorem tame_of_expanded (hv : b.Valid wide) {fuel : ℕ} (h : Expanded wide b fuel b.count) : b.Tame True := by
  obtain ⟨s, hs, -⟩ := h 0
  rw [take_count_self] at hs
  obtain ⟨E, hE, -⟩ := blocksAt_of_run fuel _ _ _ _ _ hs
  have hat := bytesAt_take wide b b.count
  rw [take_count_self] at hat
  exact ((tame_of_blocksAt hv hat hE).2 (Nat.zero_add _).symm).mono fun _ => trivial

end Blocks

theorem lidata_right_iff (b : ValidBlocks wide) :
    IteratedRight false wide b.blocks ↔ b.blocks.Tame True ∧ b.blocks.expansion.length < 2 ^ 32 := by
  obtain ⟨b, hv⟩ := b
  dsimp only
  obtain ⟨Dc, hcalc⟩ := Blocks.calcLIDataLength_eq hv
  constructor
  · rintro ⟨D, hD⟩
    obtain ⟨-, hlen, hall⟩ := hD (max D Dc) (le_max_left _ _)
    refine ⟨Blocks.tame_of_expanded hv (hall b.count le_rfl).1, ?_⟩
    rw [hcalc _ (le_max_right _ _)] at hlen
    have := Option.some.inj hlen
    have := Nat.mod_lt b.expansion.length (Nat.two_pow_pos 32)
    omega
  · rintro ⟨ht, hlt⟩
    obtain ⟨D, hcount⟩ := Blocks.counted hv hlt
    obtain ⟨D', hexp⟩ := Blocks.expanded hv ht
    refine ⟨max (max D D') (max Dc (b.count + 1)), fun fuel hfuel => ⟨fun d => ?_, ?_, fun j hj => ⟨?_, ?_⟩⟩⟩
    · obtain ⟨s, hs, hstore⟩ := hexp fuel (by omega) b.count le_rfl d
      rw [Blocks.take_count_self] at hs hstore
      exact ⟨s, doLIData_of_times hs (by omega), hstore⟩
    · rw [hcalc fuel (by omega), Nat.mod_eq_of_lt hlt]
    · exact hexp fuel (by omega) j hj
    · exact hcount fuel (by omega) j hj

theorem comdat_right_iff (b : ValidBlocks wide) :
    IteratedRight true wide b.blocks ↔
      b.blocks.expansion <+: b.blocks.encode wide ∧ b.blocks.expansion.length < 2 ^ 32 := by
  obtain ⟨b, hv⟩ := b
  dsimp only
  obtain ⟨Dc, hcalc⟩ := Blocks.calcLIDataLength_eq hv
  have hpiece : ∀ fuel, Dc ≤ fuel → comdatPiece wide (b.encode wide) fuel true =
      if b.expansion.length % 2 ^ 32 ≤ (b.encode wide).length then
        some (b.expansion.length % 2 ^ 32, (b.encode wide).take (b.expansion.length % 2 ^ 32))
      else none := by
    intro fuel hfuel
    unfold comdatPiece
    rw [if_pos rfl, hcalc fuel hfuel, Option.bind_some]
  constructor
  · rintro ⟨D, hD⟩
    obtain ⟨hkept, -⟩ := hD (max D Dc) (le_max_left _ _)
    rw [hpiece _ (le_max_right _ _)] at hkept
    split_ifs at hkept with hle
    obtain ⟨hlen, htake⟩ := Prod.ext_iff.mp (Option.some.inj hkept)
    dsimp only at hlen htake
    have := Nat.mod_lt b.expansion.length (Nat.two_pow_pos 32)
    refine ⟨?_, by omega⟩
    rw [← htake]
    exact List.take_prefix _ _
  · rintro ⟨hpre, hlt⟩
    obtain ⟨D, hcount⟩ := Blocks.counted hv hlt
    refine ⟨max D Dc, fun fuel hfuel => ⟨?_, fun j hj => hcount fuel (by omega) j hj⟩⟩
    rw [hpiece fuel (by omega), Nat.mod_eq_of_lt hlt, if_pos hpre.length_le, ← List.prefix_iff_eq_take.mp hpre]

/-- When the linker stores iterated data as it expands. -/
theorem iterated_right_iff (comdat wide : Bool) (b : ValidBlocks wide) :
    IteratedRight comdat wide b.blocks ↔
      (if comdat then b.blocks.expansion <+: b.blocks.encode wide else b.blocks.Tame True) ∧
        b.blocks.expansion.length < 2 ^ 32 := by
  cases comdat with
  | true => exact comdat_right_iff b
  | false => exact lidata_right_iff b

/-- A block that is repeated 0 times, and another one behind it. -/
def zeroThenOne : ValidBlocks false where
  blocks := .data 0 [1] (.data 1 [2] .nil)
  valid := ⟨by decide, by decide, by decide, by decide, trivial⟩

theorem not_right_zeroThenOne :
    ¬ ∀ (comdat wide : Bool) (b : ValidBlocks wide), IteratedRight comdat wide b.blocks := by
  intro h
  obtain ⟨ht, -⟩ := (lidata_right_iff zeroThenOne).mp (h false false zeroThenOne)
  exact absurd (ht.1 rfl).1 (fun hnil => nomatch hnil)

end OpenWatcom.Wlink.Lidata
