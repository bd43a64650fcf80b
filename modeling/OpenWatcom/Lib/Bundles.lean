import Mathlib.Tactic

/-! # Tables of bundles

A table maps ordinals to entries.  It is written in *bundles*: a prefix with a count of at most 255 and
the records of that many consecutive ordinals, which all are of the kind the prefix says.  Prefixes without
records skip ordinals that have no entry.

* `BundleFormat.write`: entries in the order of their ordinals, cut into bundles;
* `BundleReader.table`: the table that bytes stand for;
* `table_write`: reading what was written gives the entries back;
* `write_size`: the size that is counted while writing is the number of bytes. -/

namespace OpenWatcom

variable {α β κ : Type*}

/-! ### Writing -/

/-- A format: which entries may share a bundle with the one that starts it, and the bytes of its parts. -/
structure BundleFormat (α : Type*) where
  ordinal : α → ℕ
  joins : α → α → Bool
  null : ℕ → List UInt8
  nullSize : ℕ
  head : α → ℕ → List UInt8
  headSize : ℕ
  record : α → List UInt8
  recordSize : α → ℕ

/-- The counts of the prefixes that skip `gap` ordinals. -/
def gapCounts (gap : ℕ) : List ℕ :=
  if _h : 0xFF < gap then 0xFF :: gapCounts (gap - 0xFF) else [gap]
termination_by gap
decreasing_by omega

namespace BundleFormat

variable (f : BundleFormat α)

/-- The entries that go into the bundle of `start`, which ends with `prev` and has `entries` of them, and those
that do not. -/
def takeBundle (start : α) : α → ℕ → List α → List α × List α
  | _, _, [] => ([], [])
  | prev, entries, place :: l =>
    if 0xFF ≤ entries then ([], place :: l)
    else if !f.joins start place then ([], place :: l)
    else if 1 < f.ordinal place - f.ordinal prev then ([], place :: l)
    else
      let r := takeBundle start place (entries + 1) l
      (place :: r.1, r.2)

theorem takeBundle_append (start : α) (prev : α) (entries : ℕ) (l : List α) :
    (f.takeBundle start prev entries l).1 ++ (f.takeBundle start prev entries l).2 = l := by
  induction l generalizing prev entries with
  | nil => rfl
  | cons place l ih =>
      unfold takeBundle
      split_ifs
      · rfl
      · rfl
      · rfl
      · exact congrArg (place :: ·) (ih place (entries + 1))

theorem takeBundle_length (start : α) (prev : α) (entries : ℕ) (l : List α) :
    (f.takeBundle start prev entries l).2.length ≤ l.length := by
  have h := congrArg List.length (f.takeBundle_append start prev entries l)
  rw [List.length_append] at h
  omega

/-- The table of the entries, whose ordinals are above `prevord`, and its size as it is counted. -/
def write (prevord : ℕ) : List α → List UInt8 × ℕ
  | [] => ([], 0)
  | start :: l =>
    let gap := f.ordinal start - prevord
    let nulls := if 1 < gap then gapCounts (gap - 1) else []
    let r := f.takeBundle start start 1 l
    let bundle := start :: r.1
    let next := write (f.ordinal (r.1.getLastD start)) r.2
    (nulls.flatMap f.null ++ (f.head start bundle.length ++ (bundle.flatMap f.record ++ next.1)),
      nulls.length * f.nullSize + bundle.length * f.recordSize start + f.headSize + next.2)
termination_by l => l.length
decreasing_by
  have := f.takeBundle_length start start 1 l
  simp only [List.length_cons]
  omega

end BundleFormat

/-! ### Reading -/

/-- What a prefix says: the end of the table, a number of ordinals without entries, or a number of
records of one kind. -/
inductive BundlePrefix (κ : Type*) where
  | done
  | skip (n : ℕ)
  | bundle (n : ℕ) (kind : κ)

/-- How a table is read. -/
structure BundleReader (κ β : Type*) where
  readPrefix : List UInt8 → Option (BundlePrefix κ × List UInt8)
  readRecord : κ → List UInt8 → Option (β × List UInt8)

namespace BundleReader

variable (r : BundleReader κ β)

/-- The next `n` records, for the ordinals from `ord` on. -/
def entries (kind : κ) : ℕ → ℕ → List UInt8 → Option (List (ℕ × β) × List UInt8)
  | _, 0, bytes => some ([], bytes)
  | ord, n + 1, bytes => do
    let (entry, bytes) ← r.readRecord kind bytes
    let (es, bytes) ← entries kind (ord + 1) n bytes
    return ((ord, entry) :: es, bytes)

/-- The table from ordinal `ord` on; a table has fewer than `fuel` prefixes. -/
def tableFrom : ℕ → ℕ → List UInt8 → Option (List (ℕ × β))
  | 0, _, _ => none
  | fuel + 1, ord, bytes =>
    match r.readPrefix bytes with
    | none => none
    | some (.done, _) => some []
    | some (.skip n, bytes) => tableFrom fuel (ord + n) bytes
    | some (.bundle n kind, bytes) => do
      let (es, bytes) ← r.entries kind ord n bytes
      let es' ← tableFrom fuel (ord + n) bytes
      return es ++ es'

/-- The table that the bytes stand for; ordinals start with 1. -/
def table (bytes : List UInt8) : Option (List (ℕ × β)) := r.tableFrom (bytes.length + 1) 1 bytes

end BundleReader

/-! ### Reading what was written -/

/-- The reader takes the parts that the format writes for the entries `l` for what they are. -/
structure Reads (f : BundleFormat α) (r : BundleReader κ β) (kind : α → κ) (entry : α → β)
    (l : List α) : Prop where
  null : ∀ n rest, 1 ≤ n → n ≤ 0xFF → r.readPrefix (f.null n ++ rest) = some (.skip n, rest)
  null_ne : ∀ n, f.null n ≠ []
  head : ∀ a ∈ l, ∀ n rest, 1 ≤ n → n ≤ 0xFF →
    r.readPrefix (f.head a n ++ rest) = some (.bundle n (kind a), rest)
  head_ne : ∀ a n, f.head a n ≠ []
  record : ∀ a ∈ l, ∀ a' ∈ l, a' = a ∨ f.joins a a' = true → ∀ rest,
    r.readRecord (kind a) (f.record a' ++ rest) = some (entry a', rest)

theorem Reads.sublist {f : BundleFormat α} {r : BundleReader κ β} {kind : α → κ} {entry : α → β}
    {l m : List α} (h : Reads f r kind entry l) (hm : ∀ a ∈ m, a ∈ l) : Reads f r kind entry m where
  null := h.null
  null_ne := h.null_ne
  head a ha := h.head a (hm a ha)
  head_ne := h.head_ne
  record a ha a' ha' := h.record a (hm a ha) a' (hm a' ha')

section roundtrip

variable {f : BundleFormat α} {r : BundleReader κ β} {kind : α → κ} {entry : α → β}

/-- Skipping a gap. -/
theorem tableFrom_gap {l : List α} (h : Reads f r kind entry l) (gap : ℕ) (hgap : 1 ≤ gap) (ord : ℕ)
    (rest : List UInt8) (res : List (ℕ × β))
    (hrest : ∀ fuel, rest.length < fuel → r.tableFrom fuel (ord + gap) rest = some res)
    (fuel : ℕ) (hfuel : ((gapCounts gap).flatMap f.null ++ rest).length < fuel) :
    r.tableFrom fuel ord ((gapCounts gap).flatMap f.null ++ rest) = some res := by
  induction gap using gapCounts.induct generalizing ord fuel with
  | case1 gap hmore ih =>
      rw [gapCounts, dif_pos hmore, List.flatMap_cons, List.append_assoc] at hfuel ⊢
      obtain ⟨fuel, rfl⟩ : ∃ k, fuel = k + 1 := ⟨fuel - 1, by omega⟩
      have hpos := List.length_pos_of_ne_nil (h.null_ne 0xFF)
      rw [List.length_append] at hfuel
      rw [BundleReader.tableFrom, h.null 0xFF _ (by omega) (by omega)]
      apply ih (by omega)
      · intro k hk
        rw [show ord + 0xFF + (gap - 0xFF) = ord + gap by omega]
        exact hrest k hk
      · omega
  | case2 gap hless =>
      rw [gapCounts, dif_neg hless, List.flatMap_cons, List.flatMap_nil, List.append_nil] at hfuel ⊢
      obtain ⟨fuel, rfl⟩ : ∃ k, fuel = k + 1 := ⟨fuel - 1, by omega⟩
      have hpos := List.length_pos_of_ne_nil (h.null_ne gap)
      rw [List.length_append] at hfuel
      rw [BundleReader.tableFrom, h.null gap _ (by omega) (by omega)]
      exact hrest fuel (by omega)

/-- The entries of a bundle have consecutive ordinals and go together with the one that starts it. -/
structure Bundled (f : BundleFormat α) (start prev : α) (b : List α) : Prop where
  joins : ∀ a ∈ b, f.joins start a = true
  ordinals : b.map f.ordinal = List.range' (f.ordinal prev + 1) b.length

/-- The ordinal that a bundle ends with. -/
theorem Bundled.last {start prev : α} {b : List α} (h : Bundled f start prev b) :
    f.ordinal (b.getLastD prev) = f.ordinal prev + b.length := by
  induction b using List.reverseRecOn with
  | nil => rfl
  | append_singleton b a _ =>
      have ho := h.ordinals
      rw [List.map_append, List.length_append, List.length_singleton, List.range'_1_concat] at ho
      have hlast := List.append_inj_right ho (by simp)
      simp only [List.map_cons, List.map_nil, List.cons.injEq, and_true] at hlast
      rw [List.getLastD_concat, List.length_append, List.length_singleton, hlast]
      omega

theorem takeBundle_bundled (start : α) (prev : α) (entries : ℕ) (l : List α)
    (hl : (prev :: l).Pairwise fun a b => f.ordinal a < f.ordinal b) :
    Bundled f start prev (f.takeBundle start prev entries l).1 := by
  induction l generalizing prev entries with
  | nil => exact ⟨by simp [BundleFormat.takeBundle], rfl⟩
  | cons place l ih =>
      have hnone : Bundled f start prev [] := ⟨by simp, rfl⟩
      unfold BundleFormat.takeBundle
      split_ifs with hfull hjoins hgap
      · exact hnone
      · exact hnone
      · exact hnone
      · obtain ⟨hprev, htail⟩ := List.pairwise_cons.mp hl
        have hlt := hprev place List.mem_cons_self
        have hnext : f.ordinal place = f.ordinal prev + 1 := by omega
        obtain ⟨hj, ho⟩ := ih place (entries + 1) htail
        refine ⟨?_, ?_⟩
        · intro a ha
          rcases List.mem_cons.mp ha with rfl | ha
          · simpa using hjoins
          · exact hj a ha
        · simp only [List.map_cons, List.length_cons, List.range'_succ]
          rw [ho, hnext]

theorem takeBundle_count (start : α) (prev : α) (entries : ℕ) (l : List α) (h : entries ≤ 0xFF) :
    entries + (f.takeBundle start prev entries l).1.length ≤ 0xFF := by
  induction l generalizing prev entries with
  | nil => simpa [BundleFormat.takeBundle] using h
  | cons place l ih =>
      unfold BundleFormat.takeBundle
      split_ifs with hfull hjoins hgap
      · simpa using h
      · simpa using h
      · simpa using h
      · have := ih place (entries + 1) (by omega)
        simp only [List.length_cons]
        omega

/-- The records of a bundle. -/
theorem entries_records (k : κ) (b : List α) (ord : ℕ) (rest : List UInt8)
    (hrecord : ∀ a ∈ b, ∀ rest, r.readRecord k (f.record a ++ rest) = some (entry a, rest))
    (hord : b.map f.ordinal = List.range' ord b.length) :
    r.entries k ord b.length (b.flatMap f.record ++ rest) =
      some (b.map fun a => (f.ordinal a, entry a), rest) := by
  induction b generalizing ord with
  | nil => rfl
  | cons a b ih =>
      simp only [List.map_cons, List.length_cons, List.range'_succ, List.cons.injEq] at hord
      obtain ⟨rfl, hord⟩ := hord
      rw [List.flatMap_cons, List.append_assoc, List.length_cons, BundleReader.entries,
        hrecord a List.mem_cons_self]
      simp only [Option.bind_eq_bind, Option.bind_some]
      rw [ih (f.ordinal a + 1) (fun a' ha' => hrecord a' (List.mem_cons_of_mem a ha')) hord]
      rfl

/-- A table that was written, with the end of a table behind it, reads as the entries. -/
theorem tableFrom_write (l : List α) (h : Reads f r kind entry l) (prevord : ℕ)
    (hl : l.Pairwise fun a b => f.ordinal a < f.ordinal b) (hprev : ∀ a ∈ l, prevord < f.ordinal a)
    (tail : List UInt8) (hend : ∃ rest, r.readPrefix tail = some (.done, rest))
    (fuel : ℕ) (hfuel : ((f.write prevord l).1 ++ tail).length < fuel) :
    r.tableFrom fuel (prevord + 1) ((f.write prevord l).1 ++ tail) =
      some (l.map fun a => (f.ordinal a, entry a)) := by
  induction hn : l.length using Nat.strong_induction_on generalizing prevord l fuel with
  | _ n ih =>
      cases l with
      | nil =>
          obtain ⟨fuel, rfl⟩ : ∃ k, fuel = k + 1 := ⟨fuel - 1, by omega⟩
          obtain ⟨rest, hdone⟩ := hend
          rw [BundleFormat.write, List.nil_append, BundleReader.tableFrom, hdone]
          rfl
      | cons start l =>
          rw [BundleFormat.write] at hfuel ⊢
          dsimp only at hfuel ⊢
          have happend := f.takeBundle_append start start 1 l
          have hbundled := takeBundle_bundled start start 1 l hl
          have hcount := takeBundle_count (f := f) start start 1 l (by omega)
          generalize hb : (f.takeBundle start start 1 l).1 = b at happend hbundled hcount hfuel ⊢
          generalize hm : (f.takeBundle start start 1 l).2 = m at happend hfuel ⊢
          subst happend
          -- the table behind the bundle
          have hlast := hbundled.last
          obtain ⟨hstart, htail⟩ := List.pairwise_cons.mp hl
          obtain ⟨-, hm', hbm⟩ := List.pairwise_append.mp htail
          have habove : ∀ a ∈ m, f.ordinal (b.getLastD start) < f.ordinal a := by
            intro a ha
            rcases List.eq_nil_or_concat b with rfl | ⟨b', last, rfl⟩
            · exact hstart a (by simpa using ha)
            · rw [List.concat_eq_append, List.getLastD_concat]
              exact hbm last (by simp) a ha
          have hnext : ∀ fuel, ((f.write (f.ordinal (b.getLastD start)) m).1 ++ tail).length < fuel →
              r.tableFrom fuel (f.ordinal start + (b.length + 1))
                ((f.write (f.ordinal (b.getLastD start)) m).1 ++ tail) =
              some (m.map fun a => (f.ordinal a, entry a)) := by
            intro k hk
            have hlen : m.length < n := by
              simp only [List.length_cons, List.length_append] at hn
              omega
            have := ih m.length hlen m (h.sublist (fun a ha => by simp [ha])) _ hm' habove k hk rfl
            rwa [hlast] at this ⊢
          generalize (f.write (f.ordinal (b.getLastD start)) m).1 = next at hnext hfuel ⊢
          -- the bundle and what is behind it
          have hbundle : ∀ fuel, (f.head start (b.length + 1) ++
                ((start :: b).flatMap f.record ++ next) ++ tail).length < fuel →
              r.tableFrom fuel (f.ordinal start) (f.head start (b.length + 1) ++
                ((start :: b).flatMap f.record ++ next) ++ tail) =
              some ((start :: (b ++ m)).map fun a => (f.ordinal a, entry a)) := by
            intro k hk
            obtain ⟨k, rfl⟩ : ∃ j, k = j + 1 := ⟨k - 1, by omega⟩
            have hpos := List.length_pos_of_ne_nil (h.head_ne start (b.length + 1))
            simp only [List.append_assoc] at hk ⊢
            rw [BundleReader.tableFrom, h.head start List.mem_cons_self _ _ (by omega) (by omega)]
            have hrecords : r.entries (kind start) (f.ordinal start) (start :: b).length
                ((start :: b).flatMap f.record ++ (next ++ tail)) =
                some ((start :: b).map fun a => (f.ordinal a, entry a), next ++ tail) :=
              entries_records (kind start) (start :: b) (f.ordinal start) (next ++ tail)
                (fun a ha rest => ?_) ?_
            · dsimp only [Option.bind_eq_bind]
              rw [List.length_cons] at hrecords
              rw [hrecords, Option.bind_some, hnext k ?_]
              · simp
              · simp only [List.length_append] at hk ⊢
                omega
            · apply h.record start List.mem_cons_self a
              · rcases List.mem_cons.mp ha with rfl | ha
                · exact List.mem_cons_self
                · simp [ha]
              · rcases List.mem_cons.mp ha with rfl | ha
                · exact .inl rfl
                · exact .inr (hbundled.joins a ha)
            · rw [List.map_cons, List.length_cons, List.range'_succ, hbundled.ordinals]
          have hpos := hprev start List.mem_cons_self
          rw [List.append_assoc] at hfuel ⊢
          by_cases hgap : 1 < f.ordinal start - prevord
          · rw [if_pos hgap] at hfuel ⊢
            apply tableFrom_gap h _ (by omega) _ _ _ _ _ hfuel
            intro k hk
            rw [show prevord + 1 + (f.ordinal start - prevord - 1) = f.ordinal start by omega]
            exact hbundle k hk
          · rw [if_neg hgap] at hfuel ⊢
            rw [show prevord + 1 = f.ordinal start by omega]
            exact hbundle fuel hfuel

/-- The table of entries with increasing positive ordinals. -/
theorem table_write {l : List α} (h : Reads f r kind entry l)
    (hl : l.Pairwise fun a b => f.ordinal a < f.ordinal b) (hpos : ∀ a ∈ l, 0 < f.ordinal a)
    (tail : List UInt8) (hend : ∃ rest, r.readPrefix tail = some (.done, rest)) :
    r.table ((f.write 0 l).1 ++ tail) = some (l.map fun a => (f.ordinal a, entry a)) :=
  tableFrom_write l h 0 hl hpos tail hend _ (Nat.lt_succ_self _)

/-- The size is counted right if the parts have the sizes that are counted for them. -/
theorem write_size (l : List α) (prevord : ℕ) (hnull : ∀ n, (f.null n).length = f.nullSize)
    (hhead : ∀ a n, (f.head a n).length = f.headSize)
    (hrecord : ∀ a ∈ l, ∀ a' ∈ l, a' = a ∨ f.joins a a' = true →
      (f.record a').length = f.recordSize a)
    (hl : l.Pairwise fun a b => f.ordinal a < f.ordinal b) :
    (f.write prevord l).2 = (f.write prevord l).1.length := by
  induction hn : l.length using Nat.strong_induction_on generalizing prevord l with
  | _ n ih =>
      cases l with
      | nil =>
          rw [BundleFormat.write]
          rfl
      | cons start l =>
          rw [BundleFormat.write]
          dsimp only
          have happend := f.takeBundle_append start start 1 l
          have hbundled := takeBundle_bundled start start 1 l hl
          generalize (f.takeBundle start start 1 l).1 = b at happend hbundled ⊢
          generalize (f.takeBundle start start 1 l).2 = m at happend ⊢
          subst happend
          obtain ⟨-, htail⟩ := List.pairwise_cons.mp hl
          obtain ⟨-, hm, -⟩ := List.pairwise_append.mp htail
          have hlen : m.length < n := by
            simp only [List.length_cons, List.length_append] at hn
            omega
          have hnext := ih m.length hlen m (f.ordinal (b.getLastD start))
            (fun a ha a' ha' => hrecord a (by simp [ha]) a' (by simp [ha'])) hm rfl
          have hrecords : ((start :: b).flatMap f.record).length =
              (b.length + 1) * f.recordSize start := by
            rw [List.length_flatMap, List.map_congr_left (g := fun _ => f.recordSize start)]
            · rw [List.map_const', List.sum_replicate, smul_eq_mul, List.length_cons]
            · intro a ha
              apply hrecord start List.mem_cons_self a
              · rcases List.mem_cons.mp ha with rfl | ha
                · exact List.mem_cons_self
                · simp [ha]
              · rcases List.mem_cons.mp ha with rfl | ha
                · exact .inl rfl
                · exact .inr (hbundled.joins a ha)
          have hnulls : ∀ counts : List ℕ, (counts.flatMap f.null).length =
              counts.length * f.nullSize := by
            intro counts
            rw [List.length_flatMap, List.map_congr_left (g := fun _ => f.nullSize)
              (fun c _ => hnull c)]
            simp
          simp only [List.length_append, hnulls, hhead, hrecords, hnext, List.length_cons]
          omega

end roundtrip

end OpenWatcom
