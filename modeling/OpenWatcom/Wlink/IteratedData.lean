import OpenWatcom.Lib.LittleEndian
import OpenWatcom.Lib.Records
import OpenWatcom.Wlink.CmdImage

/-! # Data records of object modules

`GetObject` stores the data of a LEDATA record, or of a LIDATA record, whose iterated data blocks `ProcIDBlock` expands.
`CountIDBlock` and `CalcLIDataLength` only count what such blocks expand to.

`BlocksAt` says what blocks are read as, each of them once: a block that is repeated 0 times takes all the record that
is left, whatever is there. -/

namespace OpenWatcom.Wlink.Lidata

/-! ### The code

`record` are the bytes from `ObjBuff` to `EOObjRec`, `wide` is `OBJ_FMT_MS_386`, and an address is an offset in the
storage of the segment.  There is no result where a byte outside the record is read. -/

/-- The number in `k` bytes. -/
def leAt (record : List Byte) (p k : ℕ) : Option ℕ :=
  if p + k ≤ record.length then some (leVal ((record.drop p).take k)) else none

/-- The size of a repeat count. -/
def repSize (wide : Bool) : ℕ := if wide then 4 else 2

/-- Where data is stored next, and what `PutInfo` was called with. -/
structure Loading where
  dest : ℕ
  puts : List (ℕ × List Byte)

/-- Before the first call. -/
def Loading.start (dest : ℕ) : Loading := { dest := dest, puts := [] }

/-- `PutInfo` of `len` bytes at `buffer`. -/
def putInfo (record : List Byte) (buffer len : ℕ) (s : Loading) : Option Loading :=
  if len = 0 then some s
  else if buffer + len ≤ record.length then
    some { dest := s.dest + len, puts := s.puts ++ [(s.dest, (record.drop buffer).take len)] }
  else none

/-- A loop of `n` rounds. -/
def times {β : Type} (f : β → Option β) : ℕ → β → Option β
  | 0, b => some b
  | n + 1, b => (f b).bind (times f n)

variable (wide : Bool) (record : List Byte)

/-- `ProcIDBlock`, for blocks that are nested at most `depth` deep. -/
def procIDBlock : ℕ → Loading → ℕ → ℕ → Option (Loading × ℕ)
  | 0, _, _, _ => none
  | depth + 1, s, buffer, iterate =>
    if iterate = 0 then some (s, record.length)
    else
      (leAt record buffer 2).bind fun count =>
        if count = 0 then
          (leAt record (buffer + 2) 1).bind fun len =>
            (times (putInfo record (buffer + 3) len) iterate s).map fun s => (s, buffer + 3 + len)
        else
          times (fun r : Loading × ℕ =>
            times (fun r : Loading × ℕ =>
              (leAt record r.2 (repSize wide)).bind fun rep => procIDBlock depth r.1 (r.2 + repSize wide) rep)
              count (r.1, buffer + 2)) iterate (s, buffer + 2)

/-- A repeat count and its block. -/
def idBlock (depth : ℕ) (r : Loading × ℕ) : Option (Loading × ℕ) :=
  (leAt record r.2 (repSize wide)).bind fun rep => procIDBlock wide record depth r.1 (r.2 + repSize wide) rep

/-- The loop of `DoLIData`. -/
def doLIData (depth : ℕ) : ℕ → Loading → ℕ → Option Loading
  | 0, _, _ => none
  | fuel + 1, s, data =>
    if data < record.length then (idBlock wide record depth (s, data)).bind fun r => doLIData depth fuel r.1 r.2
    else some s

structure Segment where
  length : ℕ
  isdead : Bool
  isabs : Bool

/-- What `GetObject` does: a fatal error, a read outside the record, or calls of `PutInfo`. -/
inductive Loaded where
  | fatal
  | outside
  | stored (puts : List (ℕ × List Byte))

/-- `GetObject`, where a `size_t` has `bits` bits. -/
def getObject (bits fuel : ℕ) (seg : Segment) (objOffset : ℕ) (lidata : Bool) : Loaded :=
  if seg.isdead || seg.isabs then .stored []
  else if record.length ≠ 0 then
    if lidata then
      match doLIData wide record fuel fuel (.start objOffset) 0 with
      | none => .outside
      | some s => .stored s.puts
    else if seg.length < (record.length + objOffset) % 2 ^ bits then .fatal
    else .stored [(objOffset, record)]
  else .stored []

/-! ### What is stored -/

/-- Calls of `PutInfo`, each behind the one before. -/
def InOrder : ℕ → List (ℕ × List Byte) → Prop
  | _, [] => True
  | d, (o, b) :: L => o = d ∧ InOrder (d + b.length) L

theorem InOrder.append {d : ℕ} {L M : List (ℕ × List Byte)} (hL : InOrder d L)
    (hM : InOrder (d + (L.flatMap Prod.snd).length) M) : InOrder d (L ++ M) := by
  induction L generalizing d with
  | nil => simpa using hM
  | cons c L ih =>
      obtain ⟨o, b⟩ := c
      refine ⟨hL.1, ih hL.2 ?_⟩
      rwa [List.flatMap_cons, List.length_append, ← Nat.add_assoc] at hM

/-- The offsets that are stored to. -/
theorem InOrder.mem_iff {d : ℕ} {L : List (ℕ × List Byte)} (hL : InOrder d L) (q : ℕ) :
    (∃ c ∈ L, ∃ i < c.2.length, q = c.1 + i) ↔ d ≤ q ∧ q < d + (L.flatMap Prod.snd).length := by
  induction L generalizing d with
  | nil => simp
  | cons c L ih =>
      obtain ⟨o, b⟩ := c
      obtain ⟨rfl, hL⟩ := hL
      rw [List.flatMap_cons, List.length_append]
      constructor
      · rintro ⟨c, hc, i, hi, hq⟩
        obtain rfl | hc := List.mem_cons.mp hc
        · dsimp only at hi hq ⊢
          omega
        · have := (ih hL).mp ⟨c, hc, i, hi, hq⟩
          dsimp only
          omega
      · rintro ⟨hlo, hhi⟩
        dsimp only at hhi
        by_cases hb : q < o + b.length
        · exact ⟨(o, b), List.mem_cons_self, q - o, by dsimp only; omega, by dsimp only; omega⟩
        · obtain ⟨c, hc, i, hi, hq⟩ := (ih hL).mpr ⟨by omega, by omega⟩
          exact ⟨c, List.mem_cons_of_mem _ hc, i, hi, hq⟩

/-- From `s` to `s'` the bytes `E` are stored, one behind the other. -/
def Puts (s : Loading) (E : List Byte) (s' : Loading) : Prop :=
  s'.dest = s.dest + E.length ∧ ∃ L, s'.puts = s.puts ++ L ∧ InOrder s.dest L ∧ L.flatMap Prod.snd = E

variable {wide record} {s s' s'' : Loading} {E F : List Byte}

theorem Puts.refl (s : Loading) : Puts s [] s := ⟨rfl, [], (List.append_nil _).symm, trivial, rfl⟩

theorem Puts.trans (h : Puts s E s') (h' : Puts s' F s'') : Puts s (E ++ F) s'' := by
  obtain ⟨hd, L, hL, hin, rfl⟩ := h
  obtain ⟨hd', M, hM, hin', rfl⟩ := h'
  refine ⟨?_, L ++ M, ?_, hin.append (hd ▸ hin'), List.flatMap_append⟩
  · rw [hd', hd, List.length_append, Nat.add_assoc]
  · rw [hM, hL, List.append_assoc]

theorem Puts.inj (h : Puts s E s') (h' : Puts s F s') : E = F := by
  obtain ⟨-, L, hL, -, rfl⟩ := h
  obtain ⟨-, M, hM, -, rfl⟩ := h'
  rw [List.append_cancel_left (hL.symm.trans hM)]

/-- The bytes `F` again and again. -/
def repeated (n : ℕ) (F : List Byte) : List Byte := (List.replicate n F).flatten

@[simp] theorem repeated_zero (F : List Byte) : repeated 0 F = [] := rfl

theorem repeated_succ (n : ℕ) (F : List Byte) : repeated (n + 1) F = F ++ repeated n F := by
  unfold repeated
  rw [List.replicate_succ, List.flatten_cons]

@[simp] theorem repeated_length (n : ℕ) (F : List Byte) : (repeated n F).length = n * F.length := by
  simp [repeated]

theorem putInfo_eq {buffer len : ℕ} (h : buffer + len ≤ record.length) (s : Loading) :
    ∃ s', putInfo record buffer len s = some s' ∧ Puts s ((record.drop buffer).take len) s' := by
  unfold putInfo
  by_cases h0 : len = 0
  · rw [if_pos h0, h0, List.take_zero]
    exact ⟨s, rfl, .refl s⟩
  · have hlen : ((record.drop buffer).take len).length = len := by
      rw [List.length_take, List.length_drop]
      omega
    rw [if_neg h0, if_pos h]
    refine ⟨_, rfl, ?_, [(s.dest, (record.drop buffer).take len)], rfl, ⟨rfl, trivial⟩, ?_⟩
    · rw [hlen]
    · rw [List.flatMap_cons, List.flatMap_nil, List.append_nil]

theorem times_putInfo {buffer len : ℕ} (h : buffer + len ≤ record.length) (n : ℕ) (s : Loading) :
    ∃ s', times (putInfo record buffer len) n s = some s' ∧
      Puts s (repeated n ((record.drop buffer).take len)) s' := by
  induction n generalizing s with
  | zero => exact ⟨s, rfl, .refl s⟩
  | succ n ih =>
      obtain ⟨s', hs', hput⟩ := putInfo_eq h s
      obtain ⟨s'', hs'', hputs⟩ := ih s'
      refine ⟨s'', ?_, ?_⟩
      · rw [times, hs', Option.bind_some, hs'']
      · rw [repeated_succ]
        exact hput.trans hputs

/-! ### What blocks are read as -/

/-- From `p` on the record has `k` blocks, which end at `e` and expand to `E`.  A block that is repeated 0 times is
given up and ends with the record. -/
inductive BlocksAt (wide : Bool) (record : List Byte) : ℕ → ℕ → ℕ → List Byte → Prop
  | nil (p : ℕ) : BlocksAt wide record 0 p p []
  | stop {k p e : ℕ} {E : List Byte} (hrep : leAt record p (repSize wide) = some 0)
      (hrest : BlocksAt wide record k record.length e E) : BlocksAt wide record (k + 1) p e E
  | data {k p rep len e : ℕ} {E : List Byte} (hrep : leAt record p (repSize wide) = some rep) (hpos : rep ≠ 0)
      (hcount : leAt record (p + repSize wide) 2 = some 0) (hlen : leAt record (p + repSize wide + 2) 1 = some len)
      (hin : p + repSize wide + 3 + len ≤ record.length)
      (hrest : BlocksAt wide record k (p + repSize wide + 3 + len) e E) :
      BlocksAt wide record (k + 1) p e (repeated rep ((record.drop (p + repSize wide + 3)).take len) ++ E)
  | nest {k p rep count m e : ℕ} {E F : List Byte} (hrep : leAt record p (repSize wide) = some rep) (hpos : rep ≠ 0)
      (hcount : leAt record (p + repSize wide) 2 = some count) (hsome : count ≠ 0)
      (hinner : BlocksAt wide record count (p + repSize wide + 2) m F) (hrest : BlocksAt wide record k m e E) :
      BlocksAt wide record (k + 1) p e (repeated rep F ++ E)

theorem leAt_le {p k n : ℕ} (h : leAt record p k = some n) : p + k ≤ record.length := by
  unfold leAt at h
  split_ifs at h with hle
  exact hle

theorem repSize_pos (wide : Bool) : 0 < repSize wide := by cases wide <;> decide

theorem BlocksAt.le {k p e : ℕ} (h : BlocksAt wide record k p e E) (hp : p ≤ record.length) : e ≤ record.length := by
  induction h with
  | nil p => exact hp
  | stop _ _ ih => exact ih le_rfl
  | data _ _ _ _ hin _ ih => exact ih hin
  | nest _ _ hcount _ _ _ ih ih' => exact ih' (ih (leAt_le hcount))

/-- A round of the loop over the repeats of nested blocks. -/
theorem times_nest {f : Loading × ℕ → Option (Loading × ℕ)} {m : ℕ}
    (hf : ∀ r, ∃ s', Puts r.1 F s' ∧ f r = some (s', m)) (n : ℕ) (r : Loading × ℕ) :
    ∃ s', Puts r.1 (repeated (n + 1) F) s' ∧ times f (n + 1) r = some (s', m) := by
  induction n generalizing r with
  | zero =>
      obtain ⟨s', hput, hs'⟩ := hf r
      refine ⟨s', ?_, ?_⟩
      · rw [repeated_succ, repeated_zero, List.append_nil]
        exact hput
      · rw [times, hs']
        rfl
  | succ n ih =>
      obtain ⟨s', hput, hs'⟩ := hf r
      obtain ⟨s'', hputs, hs''⟩ := ih (s', m)
      refine ⟨s'', ?_, ?_⟩
      · rw [repeated_succ]
        exact hput.trans hputs
      · rw [times, hs', Option.bind_some, hs'']

/-- The code stores what blocks are read as. -/
theorem BlocksAt.run {k p e : ℕ} (h : BlocksAt wide record k p e E) :
    ∃ D, ∀ depth, D ≤ depth → ∀ s, ∃ s', Puts s E s' ∧ times (idBlock wide record depth) k (s, p) = some (s', e) := by
  induction h with
  | nil p => exact ⟨0, fun _ _ s => ⟨s, .refl s, rfl⟩⟩
  | @stop k p e E hrep hrest ih =>
      obtain ⟨D, hD⟩ := ih
      refine ⟨max D 1, fun depth hdepth s => ?_⟩
      obtain ⟨s', hput, hs'⟩ := hD depth (by omega) s
      obtain ⟨d, rfl⟩ : ∃ d, depth = d + 1 := ⟨depth - 1, by omega⟩
      refine ⟨s', hput, ?_⟩
      rw [times, idBlock, hrep, Option.bind_some, procIDBlock, if_pos rfl, Option.bind_some, hs']
  | @data k p rep len e E hrep hpos hcount hlen hin hrest ih =>
      obtain ⟨D, hD⟩ := ih
      refine ⟨max D 1, fun depth hdepth s => ?_⟩
      obtain ⟨t, ht, hput⟩ := times_putInfo hin rep s
      obtain ⟨s', hput', hs'⟩ := hD depth (by omega) t
      obtain ⟨d, rfl⟩ : ∃ d, depth = d + 1 := ⟨depth - 1, by omega⟩
      refine ⟨s', hput.trans hput', ?_⟩
      rw [times, idBlock, hrep, Option.bind_some, procIDBlock, if_neg hpos, hcount, Option.bind_some, if_pos rfl, hlen,
        Option.bind_some, ht, Option.map_some, Option.bind_some, hs']
  | @nest k p rep count m e E F hrep hpos hcount hsome hinner hrest ih ih' =>
      obtain ⟨D, hD⟩ := ih
      obtain ⟨D', hD'⟩ := ih'
      refine ⟨max (D + 1) D', fun depth hdepth s => ?_⟩
      obtain ⟨d, rfl⟩ : ∃ d, depth = d + 1 := ⟨depth - 1, by omega⟩
      obtain ⟨n, rfl⟩ : ∃ n, rep = n + 1 := ⟨rep - 1, by omega⟩
      obtain ⟨t, hput, ht⟩ := times_nest (f := fun r : Loading × ℕ =>
        times (idBlock wide record d) count (r.1, p + repSize wide + 2)) (fun r => hD d (by omega) r.1) n
        (s, p + repSize wide + 2)
      obtain ⟨s', hput', hs'⟩ := hD' (d + 1) (by omega) t
      refine ⟨s', hput.trans hput', ?_⟩
      rw [times, idBlock, hrep, Option.bind_some, procIDBlock, if_neg hpos, hcount, Option.bind_some, if_neg hsome]
      refine (congrArg (fun o => Option.bind o (times (idBlock wide record (d + 1)) k)) ht).trans ?_
      rw [Option.bind_some, hs']

/-- Blocks are read in one way only. -/
theorem BlocksAt.unique {k p e e' : ℕ} (h : BlocksAt wide record k p e E) (h' : BlocksAt wide record k p e' F) :
    e = e' ∧ E = F := by
  obtain ⟨D, hD⟩ := h.run
  obtain ⟨D', hD'⟩ := h'.run
  obtain ⟨s, hput, hs⟩ := hD (max D D') (le_max_left _ _) (.start 0)
  obtain ⟨s', hput', hs'⟩ := hD' (max D D') (le_max_right _ _) (.start 0)
  obtain ⟨rfl, rfl⟩ := Prod.ext_iff.mp (Option.some.inj (hs.symm.trans hs'))
  exact ⟨rfl, hput.inj hput'⟩

theorem times_succ_some {β : Type} {f : β → Option β} {n : ℕ} {a c : β} (h : times f (n + 1) a = some c) :
    ∃ b, f a = some b ∧ times f n b = some c := Option.bind_eq_some_iff.mp h

/-- All repeats of nested blocks store the same. -/
theorem puts_of_times_nest {f : Loading × ℕ → Option (Loading × ℕ)} {m : ℕ}
    (hf : ∀ r s' e, f r = some (s', e) → e = m ∧ Puts r.1 F s') {n e : ℕ} {r : Loading × ℕ}
    (h : times f (n + 1) r = some (s', e)) : e = m ∧ Puts r.1 (repeated (n + 1) F) s' := by
  induction n generalizing r with
  | zero =>
      obtain ⟨r', hr', h'⟩ := times_succ_some h
      obtain rfl := Option.some.inj h'
      rw [repeated_succ, repeated_zero, List.append_nil]
      exact hf r s' e hr'
  | succ n ih =>
      obtain ⟨r', hr', h'⟩ := times_succ_some h
      obtain ⟨he, hputs⟩ := ih h'
      rw [repeated_succ]
      exact ⟨he, (hf r r'.1 r'.2 hr').2.trans hputs⟩

/-- One block, given what nested blocks do. -/
theorem blocksAt_of_idBlock {depth p m : ℕ}
    (ih : ∀ k s p s' e, times (idBlock wide record depth) k (s, p) = some (s', e) →
      ∃ E, BlocksAt wide record k p e E ∧ Puts s E s')
    (h : idBlock wide record (depth + 1) (s, p) = some (s', m)) :
    ∃ E, Puts s E s' ∧ ∀ k e F, BlocksAt wide record k m e F → BlocksAt wide record (k + 1) p e (E ++ F) := by
  obtain ⟨rep, hrep, h⟩ := Option.bind_eq_some_iff.mp h
  unfold procIDBlock at h
  dsimp only at hrep h
  split_ifs at h with hzero
  · subst hzero
    obtain ⟨rfl, rfl⟩ := Prod.ext_iff.mp (Option.some.inj h)
    exact ⟨[], .refl _, fun k e F hF => .stop hrep hF⟩
  · obtain ⟨count, hcount, h⟩ := Option.bind_eq_some_iff.mp h
    split_ifs at h with hdata
    · subst hdata
      obtain ⟨len, hlen, h⟩ := Option.bind_eq_some_iff.mp h
      obtain ⟨t, ht, heq⟩ := Option.map_eq_some_iff.mp h
      obtain ⟨rfl, rfl⟩ := Prod.ext_iff.mp heq
      have hin : p + repSize wide + 3 + len ≤ record.length := by
        by_contra hout
        have hbefore := leAt_le hlen
        obtain ⟨n, rfl⟩ : ∃ n, rep = n + 1 := ⟨rep - 1, by omega⟩
        obtain ⟨u, hu, -⟩ := times_succ_some ht
        unfold putInfo at hu
        rw [if_neg (by omega), if_neg hout] at hu
        exact nomatch hu
      obtain ⟨t', ht', hput⟩ := times_putInfo hin rep s
      obtain rfl := Option.some.inj (ht.symm.trans ht')
      exact ⟨_, hput, fun k e F hF => .data hrep hzero hcount hlen hin hF⟩
    · obtain ⟨n, rfl⟩ : ∃ n, rep = n + 1 := ⟨rep - 1, by omega⟩
      obtain ⟨r, hr, -⟩ := times_succ_some h
      obtain ⟨F, hF, hput⟩ := ih count s (p + repSize wide + 2) r.1 r.2 hr
      obtain ⟨rfl, hputs⟩ := puts_of_times_nest (F := F) (m := r.2) (fun r' t e ht => by
        obtain ⟨F', hF', hput'⟩ := ih count r'.1 (p + repSize wide + 2) t e ht
        obtain ⟨rfl, rfl⟩ := hF.unique hF'
        exact ⟨rfl, hput'⟩) h
      exact ⟨_, hputs, fun k e E hE => .nest hrep hzero hcount hdata hF hE⟩

/-- Whatever is stored, blocks are read as it. -/
theorem blocksAt_of_run (depth : ℕ) : ∀ k s p s' e, times (idBlock wide record depth) k (s, p) = some (s', e) →
    ∃ E, BlocksAt wide record k p e E ∧ Puts s E s' := by
  induction depth with
  | zero =>
      intro k s p s' e h
      cases k with
      | zero =>
          obtain ⟨rfl, rfl⟩ := Prod.ext_iff.mp (Option.some.inj h)
          exact ⟨[], .nil _, .refl _⟩
      | succ k =>
          obtain ⟨r, hr, -⟩ := times_succ_some h
          obtain ⟨rep, -, hproc⟩ := Option.bind_eq_some_iff.mp hr
          exact nomatch hproc
  | succ depth ihdepth =>
      intro k
      induction k with
      | zero =>
          intro s p s' e h
          obtain ⟨rfl, rfl⟩ := Prod.ext_iff.mp (Option.some.inj h)
          exact ⟨[], .nil _, .refl _⟩
      | succ k ih =>
          intro s p s' e h
          obtain ⟨⟨t, m⟩, hr, hrest⟩ := times_succ_some h
          obtain ⟨E, hput, hE⟩ := blocksAt_of_idBlock ihdepth hr
          obtain ⟨F, hF, hput'⟩ := ih t m s' e hrest
          exact ⟨E ++ F, hE k e F hF, hput.trans hput'⟩

/-! ### LIDATA records -/

theorem lt_of_idBlock {depth p : ℕ} {r : Loading × ℕ} (h : idBlock wide record depth (s, p) = some r) :
    p < record.length := by
  obtain ⟨rep, hrep, -⟩ := Option.bind_eq_some_iff.mp h
  have := leAt_le hrep
  have := repSize_pos wide
  dsimp only at *
  omega

theorem doLIData_of_times {depth k p : ℕ}
    (h : times (idBlock wide record depth) k (s, p) = some (s', record.length)) {fuel : ℕ} (hfuel : k < fuel) :
    doLIData wide record depth fuel s p = some s' := by
  induction k generalizing s p fuel with
  | zero =>
      obtain ⟨fuel, rfl⟩ : ∃ f, fuel = f + 1 := ⟨fuel - 1, by omega⟩
      obtain ⟨hs, hp⟩ := Prod.ext_iff.mp (Option.some.inj h)
      dsimp only at hs hp
      subst hs hp
      rw [doLIData, if_neg (lt_irrefl _)]
  | succ k ih =>
      obtain ⟨fuel, rfl⟩ : ∃ f, fuel = f + 1 := ⟨fuel - 1, by omega⟩
      obtain ⟨⟨t, m⟩, hr, hrest⟩ := times_succ_some h
      rw [doLIData, if_pos (lt_of_idBlock hr), hr, Option.bind_some]
      exact ih hrest (by omega)

theorem times_of_doLIData {depth fuel p : ℕ} (hp : p ≤ record.length)
    (h : doLIData wide record depth fuel s p = some s') :
    ∃ k, times (idBlock wide record depth) k (s, p) = some (s', record.length) := by
  induction fuel generalizing s p with
  | zero => exact nomatch h
  | succ fuel ih =>
      unfold doLIData at h
      split_ifs at h with hlt
      · obtain ⟨⟨t, m⟩, hr, hrest⟩ := Option.bind_eq_some_iff.mp h
        have hone : times (idBlock wide record depth) 1 (s, p) = some (t, m) := by
          rw [times, hr]
          rfl
        obtain ⟨E, hE, -⟩ := blocksAt_of_run depth 1 s p t m hone
        obtain ⟨k, hk⟩ := ih (hE.le hp) hrest
        refine ⟨k + 1, ?_⟩
        rw [times, hr, Option.bind_some, hk]
      · obtain rfl : p = record.length := by omega
        obtain rfl := Option.some.inj h
        exact ⟨0, rfl⟩

/-- The record is blocks that expand to `E`. -/
def RecordReads (wide : Bool) (record E : List Byte) : Prop := ∃ k, BlocksAt wide record k 0 record.length E

theorem RecordReads.run (h : RecordReads wide record E) :
    ∃ D, ∀ fuel, D ≤ fuel → ∀ d, ∃ s', Puts (.start d) E s' ∧
      doLIData wide record fuel fuel (.start d) 0 = some s' := by
  obtain ⟨k, hk⟩ := h
  obtain ⟨D, hD⟩ := hk.run
  refine ⟨max D (k + 1), fun fuel hfuel d => ?_⟩
  obtain ⟨s', hput, hs'⟩ := hD fuel (by omega) (.start d)
  exact ⟨s', hput, doLIData_of_times hs' (by omega)⟩

theorem recordReads_of_run {fuel d : ℕ} (h : doLIData wide record fuel fuel (.start d) 0 = some s') :
    ∃ E, RecordReads wide record E ∧ Puts (.start d) E s' := by
  obtain ⟨k, hk⟩ := times_of_doLIData (Nat.zero_le _) h
  obtain ⟨E, hE, hput⟩ := blocksAt_of_run fuel k _ _ _ _ hk
  exact ⟨E, ⟨k, hE⟩, hput⟩

theorem RecordReads.unique (h : RecordReads wide record E) (h' : RecordReads wide record F) : E = F := by
  obtain ⟨D, hD⟩ := h.run
  obtain ⟨D', hD'⟩ := h'.run
  obtain ⟨s, hput, hs⟩ := hD (max D D') (le_max_left _ _) 0
  obtain ⟨s', hput', hs'⟩ := hD' (max D D') (le_max_right _ _) 0
  obtain rfl := Option.some.inj (hs.symm.trans hs')
  exact hput.inj hput'

/-! ### Records and segments -/

/-- A segment whose data is loaded. -/
structure LiveSegment extends Segment where
  isdead_eq : isdead = false
  isabs_eq : isabs = false

/-- A fatal error is reported, or all bytes that are read are in the record and all that are stored in the segment. -/
def Safe (length : ℕ) : Loaded → Prop
  | .fatal => True
  | .outside => False
  | .stored puts => ∀ c ∈ puts, ∀ i < c.2.length, c.1 + i < length

/-- Storing `E` from `d` on stays inside the segment. -/
theorem safe_stored_iff {d : ℕ} (length : ℕ) (h : Puts (.start d) E s) :
    Safe length (.stored s.puts) ↔ E = [] ∨ d + E.length ≤ length := by
  obtain ⟨-, L, hL, hin, rfl⟩ := h
  have hputs : s.puts = L := hL
  have hmem := hin.mem_iff
  have hd : (Loading.start d).dest = d := rfl
  rw [hd] at hmem
  unfold Safe
  rw [hputs]
  constructor
  · intro hsafe
    by_contra hnot
    push Not at hnot
    have hpos := List.length_pos_of_ne_nil hnot.1
    obtain ⟨c, hc, i, hi, hq⟩ := (hmem (d + (L.flatMap Prod.snd).length - 1)).mpr (by omega)
    have := hsafe c hc i hi
    omega
  · rintro hcases c hc i hi
    have hbounds := (hmem (c.1 + i)).mp ⟨c, hc, i, hi, rfl⟩
    obtain hnil | hle := hcases
    · rw [hnil, List.length_nil] at hbounds
      omega
    · omega

/-- With all fuels from some on. -/
def LoadsSafely (wide : Bool) (record : List Byte) (bits : ℕ) (seg : Segment) (objOffset : ℕ) (lidata : Bool) : Prop :=
  ∃ D, ∀ fuel, D ≤ fuel → Safe seg.length (getObject wide record bits fuel seg objOffset lidata)

theorem getObject_live (bits fuel : ℕ) (seg : LiveSegment) (objOffset : ℕ) (lidata : Bool) (hne : record ≠ []) :
    getObject wide record bits fuel seg.toSegment objOffset lidata =
      if lidata then
        match doLIData wide record fuel fuel (.start objOffset) 0 with
        | none => .outside
        | some s => .stored s.puts
      else if seg.length < (record.length + objOffset) % 2 ^ bits then .fatal
      else .stored [(objOffset, record)] := by
  have hlen : record.length ≠ 0 := fun h => hne (List.length_eq_zero_iff.mp h)
  unfold getObject
  rw [seg.isdead_eq, seg.isabs_eq, if_neg (by decide), if_pos hlen]

/-- A LIDATA record is loaded safely if and only if it is blocks that end inside it and expand to nothing or to what
the segment has room for. -/
theorem lidata_safe_iff (bits : ℕ) (seg : LiveSegment) (objOffset : ℕ) :
    LoadsSafely wide record bits seg.toSegment objOffset true ↔
      ∃ E, RecordReads wide record E ∧ (E = [] ∨ objOffset + E.length ≤ seg.length) := by
  by_cases hne : record = []
  · subst hne
    have hget : ∀ fuel, getObject wide [] bits fuel seg.toSegment objOffset true = .stored [] := by
      intro fuel
      unfold getObject
      rw [seg.isdead_eq, seg.isabs_eq, if_neg (by decide), if_neg (by decide)]
    refine ⟨fun _ => ⟨[], ⟨0, .nil 0⟩, .inl rfl⟩, fun _ => ⟨0, fun fuel _ => ?_⟩⟩
    rw [hget]
    exact fun c hc => nomatch hc
  · constructor
    · rintro ⟨D, hD⟩
      have hsafe := hD D le_rfl
      rw [getObject_live _ _ _ _ _ hne, if_pos rfl] at hsafe
      cases hrun : doLIData wide record D D (.start objOffset) 0 with
      | none =>
          rw [hrun] at hsafe
          exact absurd hsafe id
      | some s =>
          rw [hrun] at hsafe
          obtain ⟨E, hE, hput⟩ := recordReads_of_run hrun
          exact ⟨E, hE, (safe_stored_iff seg.length hput).mp hsafe⟩
    · rintro ⟨E, hE, hroom⟩
      obtain ⟨D, hD⟩ := hE.run
      refine ⟨D, fun fuel hfuel => ?_⟩
      obtain ⟨s, hput, hs⟩ := hD fuel hfuel objOffset
      rw [getObject_live _ _ _ _ _ hne, if_pos rfl, hs]
      exact (safe_stored_iff seg.length hput).mpr hroom

/-- A LEDATA record is loaded safely if and only if its end, as a `size_t`, is beyond the segment, or its end is not. -/
theorem ledata_safe_iff (bits : ℕ) (seg : LiveSegment) (objOffset : ℕ) :
    LoadsSafely wide record bits seg.toSegment objOffset false ↔
      record = [] ∨ seg.length < (record.length + objOffset) % 2 ^ bits ∨ objOffset + record.length ≤ seg.length := by
  by_cases hne : record = []
  · subst hne
    have hget : ∀ fuel, getObject wide [] bits fuel seg.toSegment objOffset false = .stored [] := by
      intro fuel
      unfold getObject
      rw [seg.isdead_eq, seg.isabs_eq, if_neg (by decide), if_neg (by decide)]
    refine ⟨fun _ => .inl rfl, fun _ => ⟨0, fun fuel _ => ?_⟩⟩
    rw [hget]
    exact fun c hc => nomatch hc
  · have hpos := List.length_pos_of_ne_nil hne
    have hput : Puts (.start objOffset) record { dest := objOffset + record.length, puts := [(objOffset, record)] } :=
      ⟨rfl, [(objOffset, record)], rfl, ⟨rfl, trivial⟩, by rw [List.flatMap_cons, List.flatMap_nil, List.append_nil]⟩
    have hstored := safe_stored_iff seg.length hput
    have hsafe : ∀ fuel, Safe seg.length (getObject wide record bits fuel seg.toSegment objOffset false) ↔
        seg.length < (record.length + objOffset) % 2 ^ bits ∨ objOffset + record.length ≤ seg.length := by
      intro fuel
      rw [getObject_live _ _ _ _ _ hne, if_neg (by decide)]
      split_ifs with hfatal
      · exact ⟨fun _ => .inl hfatal, fun _ => trivial⟩
      · rw [hstored]
        exact ⟨fun h => .inr (h.resolve_left hne), fun h => .inr (h.resolve_left hfatal)⟩
    constructor
    · rintro ⟨D, hD⟩
      exact .inr ((hsafe D).mp (hD D le_rfl))
    · intro h
      exact ⟨0, fun fuel _ => (hsafe fuel).mpr (h.resolve_left hne)⟩

/-- When a record is loaded safely. -/
theorem getObject_safe_iff (wide : Bool) (record : List Byte) (bits : ℕ) (seg : LiveSegment) (objOffset : ℕ)
    (lidata : Bool) : LoadsSafely wide record bits seg.toSegment objOffset lidata ↔
      if lidata then ∃ E, RecordReads wide record E ∧ (E = [] ∨ objOffset + E.length ≤ seg.length)
      else record = [] ∨ seg.length < (record.length + objOffset) % 2 ^ bits ∨
        objOffset + record.length ≤ seg.length := by
  cases lidata with
  | true => exact lidata_safe_iff bits seg objOffset
  | false => exact ledata_safe_iff bits seg objOffset

/-- A segment of four bytes. -/
def shortSegment : LiveSegment where
  length := 4
  isdead := false
  isabs := false
  isdead_eq := rfl
  isabs_eq := rfl

/-- One byte, which is repeated five times. -/
theorem not_safe_short : ¬ ∀ (wide : Bool) (record : List Byte) (seg : LiveSegment) (objOffset : ℕ) (lidata : Bool),
    LoadsSafely wide record 64 seg.toSegment objOffset lidata := by
  intro h
  have hrep : leAt [5, 0, 0, 0, 1, 7] 0 (repSize false) = some 5 := rfl
  have hlen : leAt [5, 0, 0, 0, 1, 7] (0 + repSize false + 2) 1 = some 1 := rfl
  have hreads : RecordReads false [5, 0, 0, 0, 1, 7] [7, 7, 7, 7, 7] :=
    ⟨1, .data hrep (by decide) rfl hlen (by decide) (.nil 6)⟩
  obtain ⟨E, hE, hroom⟩ := (lidata_safe_iff 64 shortSegment 0).mp (h false [5, 0, 0, 0, 1, 7] shortSegment 0 true)
  rw [hE.unique hreads] at hroom
  exact absurd hroom (by decide)

end OpenWatcom.Wlink.Lidata
