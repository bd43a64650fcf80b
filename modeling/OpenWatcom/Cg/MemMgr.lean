import Mathlib.Tactic

/-! # The allocator of the code generator

`cgmemmgr.c` cuts chunks of eleven sizes off the unused end of blocks of the system, keeps freed chunks in a list for
each size, and puts a large request at the end of a block of its own. -/

namespace OpenWatcom.MemMgr

/-! ### Sizes -/

/-- The machine that the code generator runs on: with 64 bits or with 32. -/
structure Target where
  wide : Bool

namespace Target

variable (t : Target)

/-- `TAG_SIZE`, which is also the size of a pointer. -/
def tagSize : ℕ := if t.wide then 8 else 4

/-- `MEM_WORD_SIZE`. -/
def memWordSize : ℕ := 2 * t.tagSize

/-- `sizeof( mem_blk )`. -/
def blkSize : ℕ := 3 * t.tagSize

/-- `sizeof( blk_hdr )`. -/
def hdrSize : ℕ := 2 * t.tagSize

/-- `_RoundUp`, as a `size_t`. -/
def roundUp (size word : ℕ) : ℕ := (size + (word - 1)) % 2 ^ (8 * t.tagSize) / word * word

/-- A difference of `size_t`. -/
def sub (a b : ℕ) : ℕ := (a + (2 ^ (8 * t.tagSize) - b)) % 2 ^ (8 * t.tagSize)

end Target

/-- `MAX_ALLOC`. -/
def maxAlloc : ℕ := 16384

/-- The loop of `SizeToClass`. -/
def classLoop (amount mem_class : ℕ) : ℕ :=
  if amount / 2 = 0 then mem_class + 1 else classLoop (amount / 2) (mem_class + 1)
termination_by amount

/-- `SizeToClass`. -/
def sizeToClass (amount : ℕ) : ℕ :=
  if maxAlloc ≤ amount then 10 else if amount ≤ 16 then 0 else classLoop ((amount - 1) / 16) 0

/-- `ClassToSize`. -/
def classToSize (mem_class : ℕ) : ℕ := 2 ^ (4 + mem_class)

/-- A length with the bit `ALLOCATED`. -/
def allocated (length : ℕ) : ℕ := length / 2 * 2 + 1

/-- A length without the bit `ALLOCATED`. -/
def unallocated (length : ℕ) : ℕ := length / 2 * 2

/-! ### State -/

/-- `mem_blk`, at its address. -/
structure MemBlk where
  addr : ℕ
  free : ℕ
  size : ℕ

/-- The static data, the tags and the headers in the memory, and the blocks that the system has given. -/
structure State where
  /-- `_Blks`. -/
  blks : List MemBlk
  /-- `_FreeList`, the addresses along the links. -/
  freeList : ℕ → List ℕ
  /-- The tag at an address, `length` of `frl` and `size` of `blk_hdr`. -/
  length : ℕ → ℕ
  /-- `block` of the `blk_hdr` at an address. -/
  block : ℕ → ℕ
  /-- The blocks of the system, with their sizes. -/
  sys : List (ℕ × ℕ)

/-- `memInit`. -/
def memInit : State := ⟨[], fun _ => [], fun _ => 0, fun _ => 0, []⟩

section code

variable (t : Target)

/-- `MemFromSys`; `malloc` answers with an address or with NULL. -/
def memFromSys (malloc : ℕ → Option ℕ) (amount : ℕ) (s : State) : Option ℕ × State :=
  let size := t.roundUp (amount + t.blkSize + t.hdrSize) 65536
  match malloc size with
  | none => (none, s)
  | some ptr =>
      let free := t.sub (t.sub size amount) t.blkSize
      if amount ≠ 0 then
        let free := t.sub free t.hdrSize
        let header := ptr + t.blkSize + free
        let tag := header + t.hdrSize - t.tagSize
        (some (header + t.hdrSize),
          { s with
            blks := ⟨ptr, free, t.sub size (amount + t.hdrSize)⟩ :: s.blks
            length := Function.update s.length tag (allocated amount)
            block := Function.update s.block header ptr
            sys := (ptr, size) :: s.sys })
      else (some (ptr + t.blkSize), { s with blks := ⟨ptr, free, size⟩ :: s.blks, sys := (ptr, size) :: s.sys })

/-- The loop of `GetFromBlk`: the address of the chunk, and the blocks. -/
def carve (amount : ℕ) : List MemBlk → Option (ℕ × List MemBlk)
  | [] => none
  | blk :: blks =>
      if amount ≤ blk.free then
        some (blk.addr + blk.size - blk.free, { blk with free := blk.free - amount } :: blks)
      else (carve amount blks).map fun p => (p.1, blk :: p.2)

/-- The chunk that the loop of `GetFromBlk` finds. -/
def getFromBlks (amount : ℕ) (s : State) : Option (ℕ × State) :=
  (carve amount s.blks).map fun p =>
    (p.1 + t.tagSize, { s with blks := p.2, length := Function.update s.length p.1 (allocated amount) })

/-- `GetFromBlk`; the second search finds the new block. -/
def getFromBlk (malloc : ℕ → Option ℕ) (amount : ℕ) (s : State) : Option ℕ × State :=
  match getFromBlks t amount s with
  | some (p, s) => (some p, s)
  | none =>
      match memFromSys t malloc 0 s with
      | (none, s) => (none, s)
      | (some _, s) =>
          match getFromBlks t amount s with
          | some (p, s) => (some p, s)
          | none => (none, s)

/-- `GetFromFrl`. -/
def getFromFrl (frl_class : ℕ) (s : State) : Option (ℕ × State) :=
  match s.freeList frl_class with
  | [] => none
  | free :: rest =>
      some (free, { s with
        freeList := Function.update s.freeList frl_class rest
        length := Function.update s.length free (allocated (s.length free)) })

/-- `CgMemAlloc`. -/
def cgMemAlloc (malloc : ℕ → Option ℕ) (amount : ℕ) (s : State) : Option ℕ × State :=
  if amount = 0 then (none, s)
  else
    let amount := t.roundUp (amount + t.tagSize) t.memWordSize
    if maxAlloc < amount then memFromSys t malloc amount s
    else
      let amount := max amount (2 * t.tagSize)
      let mem_class := sizeToClass amount
      match getFromFrl mem_class s with
      | some (chunk, s) => (some (chunk + t.tagSize), s)
      | none => getFromBlk t malloc (classToSize mem_class) s

/-- The block at an address with the space of a large chunk added to it. -/
def extendBlk (addr len : ℕ) (blk : MemBlk) : MemBlk :=
  if blk.addr = addr then { blk with free := blk.free + len, size := blk.size + len } else blk

/-- `CgMemFree`. -/
def cgMemFree (p : ℕ) (s : State) : State :=
  let free := p - t.tagSize
  let length := unallocated (s.length free)
  let s := { s with length := Function.update s.length free length }
  if maxAlloc < length then
    { s with blks := s.blks.map (extendBlk (s.block (p - t.hdrSize)) (length + t.hdrSize)) }
  else
    { s with freeList := Function.update s.freeList (sizeToClass length) (free :: s.freeList (sizeToClass length)) }

end code

/-! ### Runs -/

/-- A state with the chunks that were asked for and not freed, their addresses and the sizes asked for, and the small
chunks that were freed and not given again. -/
structure Run where
  state : State
  live : List (ℕ × ℕ)
  freed : List ℕ

/-- `malloc` gives aligned blocks that are not given already. -/
def MallocFor (t : Target) (s : State) (malloc : ℕ → Option ℕ) : Prop :=
  ∀ size ptr, malloc size = some ptr → t.memWordSize ∣ ptr ∧ 0 < ptr ∧
    ∀ q ∈ s.sys, q.1 + q.2 ≤ ptr ∨ ptr + size ≤ q.1

/-- The sums in the rounding of a request have room in a `size_t`. -/
def NoWrap (t : Target) (amount : ℕ) : Prop :=
  (amount + t.tagSize + (t.memWordSize - 1)) / t.memWordSize * t.memWordSize + t.blkSize + t.hdrSize + 65535 <
    2 ^ (8 * t.tagSize)

instance (t : Target) (amount : ℕ) : Decidable (NoWrap t amount) := inferInstanceAs (Decidable (_ < _))

/-- What `CgMemAlloc` makes of a run. -/
def Run.alloc (t : Target) (malloc : ℕ → Option ℕ) (amount : ℕ) (r : Run) : Run :=
  match cgMemAlloc t malloc amount r.state with
  | (none, s) => ⟨s, r.live, r.freed⟩
  | (some p, s) => ⟨s, (p, amount) :: r.live, r.freed.filter (· ≠ p)⟩

/-- The length in the tag of a chunk in use. -/
def chunkLength (t : Target) (s : State) (p : ℕ) : ℕ := unallocated (s.length (p - t.tagSize))

/-- What `CgMemFree` makes of a run. -/
def Run.free (t : Target) (p : ℕ) (r : Run) : Run where
  state := cgMemFree t p r.state
  live := r.live.filter (·.1 ≠ p)
  freed := if chunkLength t r.state p ≤ maxAlloc then p :: r.freed else r.freed

/-- The runs of requests that meet a condition, with answers of the system at will. -/
inductive Reaches (t : Target) (cond : ℕ → Prop) : Run → Prop
  | init : Reaches t cond ⟨memInit, [], []⟩
  | alloc {r : Run} (h : Reaches t cond r) {malloc : ℕ → Option ℕ} (hmalloc : MallocFor t r.state malloc) {amount : ℕ}
      (hamount : cond amount) : Reaches t cond (r.alloc t malloc amount)
  | free {r : Run} (h : Reaches t cond r) {p req : ℕ} (hp : (p, req) ∈ r.live) : Reaches t cond (r.free t p)

/-! ### What the allocator is for -/

/-- A byte lies in a span of memory, given by start and length. -/
def Within (x : ℕ) (p : ℕ × ℕ) : Prop := p.1 ≤ x ∧ x < p.1 + p.2

/-- Two spans of memory have no byte in common. -/
def Apart (p q : ℕ × ℕ) : Prop := ∀ x, Within x p → ¬ Within x q

/-- A span of memory lies in a block of the system. -/
def InSystem (s : State) (p : ℕ × ℕ) : Prop := ∃ q ∈ s.sys, q.1 ≤ p.1 ∧ p.1 + p.2 ≤ q.1 + q.2

/-- The unused space of a block. -/
def unused (blk : MemBlk) : ℕ × ℕ := (blk.addr + blk.size - blk.free, blk.free)

/-- The space of a large chunk is unused space of its block again, once. -/
def GivenBack (t : Target) (s : State) (p : ℕ) : Prop :=
  ∃ l₁ blk l₂, s.blks = l₁ ++ blk :: l₂ ∧ (unused blk).1 + (unused blk).2 + t.hdrSize = p ∧
    (∃ q ∈ s.sys, q.1 = blk.addr ∧ q.1 + q.2 = p + chunkLength t s p) ∧
    ∃ blk', (cgMemFree t p s).blks = l₁ ++ blk' :: l₂ ∧
      unused blk' = ((unused blk).1, (unused blk).2 + (t.hdrSize + chunkLength t s p))

/-- The run is right: the chunks in use, the free ones, the unused space of the blocks, the headers and tags, and the
next call. -/
structure Good (t : Target) (r : Run) : Prop where
  live_apart : r.live.Pairwise Apart
  live_inSystem : ∀ p ∈ r.live, InSystem r.state p
  live_aligned : ∀ p ∈ r.live, t.memWordSize ∣ p.1
  live_large_enough : ∀ p ∈ r.live, p.2 + t.tagSize ≤ chunkLength t r.state p.1
  free_class : ∀ c, ∀ a ∈ r.state.freeList c,
    r.state.length a = unallocated (r.state.length a) ∧ c = sizeToClass (r.state.length a)
  free_once : ∀ c, (r.state.freeList c).Nodup
  free_listed : ∀ p ∈ r.freed, ∃! c, p - t.tagSize ∈ r.state.freeList c
  free_apart : ∀ c, ∀ a ∈ r.state.freeList c, ∀ p ∈ r.live, Apart (a, r.state.length a) p
  unused_inSystem : ∀ blk ∈ r.state.blks, InSystem r.state (unused blk)
  unused_apart : ∀ blk ∈ r.state.blks, (∀ p ∈ r.live, Apart (unused blk) p) ∧
    ∀ c, ∀ a ∈ r.state.freeList c, Apart (unused blk) (a, r.state.length a)
  header_apart : ∀ blk ∈ r.state.blks, ∀ p ∈ r.live, Apart (blk.addr, t.blkSize) p
  tag_apart : ∀ p ∈ r.live, ∀ q ∈ r.live, Apart (p.1 - t.tagSize, t.tagSize) q ∧
    (maxAlloc < chunkLength t r.state p.1 → Apart (p.1 - t.hdrSize, t.hdrSize) q)
  large_back : ∀ p ∈ r.live, maxAlloc < chunkLength t r.state p.1 → GivenBack t r.state p.1
  alloc_fails : ∀ malloc amount s, cgMemAlloc t malloc amount r.state = (none, s) → s = r.state

/-! ### Classes of sizes -/

theorem classLoop_eq (amount mem_class : ℕ) : classLoop amount mem_class = mem_class + 1 + Nat.log 2 amount := by
  fun_induction classLoop amount mem_class with
  | case1 amount mem_class h =>
    rw [Nat.log_of_lt (by omega)]
  | case2 amount mem_class h ih =>
    rw [ih, Nat.log_of_one_lt_of_le (b := 2) (n := amount) (by omega) (by omega)]
    omega

/-- The class of an amount has room for it. -/
theorem sizeToClass_spec {amount : ℕ} (h : amount ≤ maxAlloc) :
    sizeToClass amount ≤ 10 ∧ amount ≤ 2 ^ (4 + sizeToClass amount) := by
  unfold sizeToClass
  unfold maxAlloc at *
  split_ifs with hmax hmin
  · exact ⟨le_rfl, by norm_num; omega⟩
  · exact ⟨by omega, by norm_num; omega⟩
  · rw [classLoop_eq]
    have hlog : Nat.log 2 ((amount - 1) / 16) < 10 := Nat.log_lt_of_lt_pow (by omega) (by norm_num; omega)
    have hpow := Nat.lt_pow_succ_log_self (b := 2) (by norm_num) ((amount - 1) / 16)
    refine ⟨by omega, ?_⟩
    have heq : 2 ^ (4 + (0 + 1 + Nat.log 2 ((amount - 1) / 16))) = 16 * 2 ^ (Nat.log 2 ((amount - 1) / 16) + 1) := by
      rw [show 4 + (0 + 1 + Nat.log 2 ((amount - 1) / 16)) = 4 + (Nat.log 2 ((amount - 1) / 16) + 1) by omega, pow_add]
      norm_num
    omega

/-- A chunk goes back to the class that it was cut for. -/
theorem sizeToClass_pow {k : ℕ} (h : k ≤ 10) : sizeToClass (2 ^ (4 + k)) = k := by
  interval_cases k <;> simp [sizeToClass, maxAlloc, classLoop]

theorem pow_le_maxAlloc {k : ℕ} (h : k ≤ 10) : 2 ^ (4 + k) ≤ maxAlloc :=
  Nat.pow_le_pow_right (by norm_num) (by omega : 4 + k ≤ 14)

theorem sixteen_dvd (k : ℕ) : 16 ∣ 2 ^ (4 + k) := ⟨2 ^ k, by rw [pow_add]; norm_num⟩

namespace Target

theorem tagSize_cases (t : Target) : t.tagSize = 4 ∨ t.tagSize = 8 := by
  obtain ⟨_ | _⟩ := t <;> simp [tagSize]

theorem word_dvd (t : Target) : t.memWordSize ∣ 16 := by
  obtain ⟨_ | _⟩ := t <;> simp [memWordSize, tagSize]

theorem word_dvd_pow (t : Target) (k : ℕ) : t.memWordSize ∣ 2 ^ (4 + k) := t.word_dvd.trans (sixteen_dvd k)

end Target

theorem allocated_of_even {n : ℕ} (h : 2 ∣ n) : allocated n = n + 1 := by
  unfold allocated
  omega

theorem unallocated_succ {n : ℕ} (h : 2 ∣ n) : unallocated (n + 1) = n := by
  unfold unallocated
  omega

theorem even_pow (k : ℕ) : 2 ∣ 2 ^ (4 + k) := (by norm_num : 2 ∣ 16).trans (sixteen_dvd k)

/-! ### Spans -/

section spans

variable {p q p' : ℕ × ℕ} {x y u f g : ℕ} {l l' : List (ℕ × ℕ)}

theorem Apart.symm (h : Apart p q) : Apart q p := fun x hq hp => h x hp hq

theorem Apart.ne (h : Apart p q) (hx : Within x p) (hy : Within y q) : x ≠ y := by
  rintro rfl
  exact h x hx hy

theorem Apart.mono (h : Apart p q) (hp : ∀ x, Within x p' → Within x p) : Apart p' q := fun x hx => h x (hp x hx)

theorem within_add : Within x (u, f + g) ↔ Within x (u, f) ∨ Within x (u + f, g) := by
  simp only [Within]
  omega

theorem pairwise_perm (h : l.Perm l') (hl : l.Pairwise Apart) : l'.Pairwise Apart :=
  (h.pairwise_iff Apart.symm).1 hl

/-- A span may be cut in two. -/
theorem pairwise_split (h : ((u, f + g) :: l).Pairwise Apart) : ((u, f) :: (u + f, g) :: l).Pairwise Apart := by
  rw [List.pairwise_cons] at h
  simp only [List.pairwise_cons, List.mem_cons, forall_eq_or_imp]
  refine ⟨⟨?_, fun q hq => ?_⟩, fun q hq => ?_, h.2⟩
  · simp only [Apart, Within]
    omega
  · exact (h.1 q hq).mono fun x hx => within_add.2 (.inl hx)
  · exact (h.1 q hq).mono fun x hx => within_add.2 (.inr hx)

/-- Two spans that adjoin may be put together. -/
theorem pairwise_merge (h : ((u, f) :: (u + f, g) :: l).Pairwise Apart) : ((u, f + g) :: l).Pairwise Apart := by
  simp only [List.pairwise_cons, List.mem_cons, forall_eq_or_imp] at h
  rw [List.pairwise_cons]
  refine ⟨fun q hq x hx => ?_, h.2.2⟩
  rcases within_add.1 hx with hx | hx
  · exact h.1.2 q hq x hx
  · exact h.2.1 q hq x hx

end spans

/-! ### The layout of the blocks -/

/-- A chunk in use: the span that it takes with its tag or header, its address, its length and the size asked for. -/
structure Chunk where
  start : ℕ
  ext : ℕ
  p : ℕ
  len : ℕ
  req : ℕ

namespace Chunk

def span (c : Chunk) : ℕ × ℕ := (c.start, c.ext)

def live (c : Chunk) : ℕ × ℕ := (c.p, c.req)

/-- A chunk of a class, behind its tag. -/
def Small (t : Target) (c : Chunk) : Prop :=
  c.p = c.start + t.tagSize ∧ c.ext = c.len ∧ ∃ k ≤ 10, c.len = 2 ^ (4 + k)

end Chunk

/-- Where a block ends for the small chunks. -/
def ends (b : MemBlk) : ℕ × ℕ := (b.addr, b.size)

/-- A large chunk, behind its header, from the end of its block to the end of the block of the system. -/
def Chunk.Large (t : Target) (s : State) (c : Chunk) : Prop :=
  c.p = c.start + t.hdrSize ∧ c.ext = c.len + t.hdrSize ∧ maxAlloc < c.len ∧ 2 ∣ c.len ∧
    ∃ size, (s.block c.start, size) ∈ s.blks.map ends ∧ c.start = s.block c.start + size ∧
      ∃ q ∈ s.sys, q.1 = s.block c.start ∧ q.1 + q.2 = c.start + c.ext

structure ChunkOk (t : Target) (s : State) (c : Chunk) : Prop where
  tag : s.length (c.p - t.tagSize) = c.len + 1
  enough : c.req + t.tagSize ≤ c.len
  aligned : t.memWordSize ∣ c.p
  inSystem : InSystem s c.span
  kind : c.Small t ∨ c.Large t s

/-- A free chunk, by its tag. -/
structure FreeOk (t : Target) (s : State) (a : ℕ × ℕ) : Prop where
  tag : s.length a.1 = a.2
  pow : ∃ k ≤ 10, a.2 = 2 ^ (4 + k)
  aligned : t.memWordSize ∣ a.1 + t.tagSize
  inSystem : InSystem s a

structure BlkOk (t : Target) (sys : List (ℕ × ℕ)) (b : MemBlk) : Prop where
  room : b.free + t.blkSize ≤ b.size
  aligned : t.memWordSize ∣ (unused b).1 + t.tagSize
  inSystem : ∃ q ∈ sys, q.1 = b.addr ∧ b.size ≤ q.2

/-- The `mem_blk` of a block and its unused space. -/
def blkSpans (t : Target) (b : MemBlk) : List (ℕ × ℕ) := [unused b, (b.addr, t.blkSize)]

/-- The spans of memory of a layout. -/
def spans (t : Target) (blks : List MemBlk) (lv : List Chunk) (fr : List (ℕ × ℕ)) : List (ℕ × ℕ) :=
  blks.flatMap (blkSpans t) ++ (lv.map Chunk.span ++ fr)

/-- The state has these chunks in use and these free ones. -/
structure Inv (t : Target) (s : State) (lv : List Chunk) (fr : List (ℕ × ℕ)) : Prop where
  apart : (spans t s.blks lv fr).Pairwise Apart
  nodup : (s.blks.map MemBlk.addr).Nodup
  blk : ∀ b ∈ s.blks, BlkOk t s.sys b
  live : ∀ c ∈ lv, ChunkOk t s c
  free : ∀ a ∈ fr, FreeOk t s a
  lists : ∀ k, s.freeList k = (fr.filter (fun a => a.2 = 2 ^ (4 + k))).map Prod.fst

section facts

variable {t : Target} {s s' : State} {c : Chunk} {a : ℕ × ℕ} {b : MemBlk}

theorem ChunkOk.even (h : ChunkOk t s c) : 2 ∣ c.len := by
  rcases h.kind with ⟨-, -, k, -, hk⟩ | ⟨-, -, -, heven, -⟩
  · exact hk ▸ even_pow k
  · exact heven

theorem ChunkOk.chunkLength (h : ChunkOk t s c) : chunkLength t s c.p = c.len := by
  rw [MemMgr.chunkLength, h.tag, unallocated_succ h.even]

/-- The bytes of a chunk are in its span, as are its tag, its start and the end of the tag. -/
theorem ChunkOk.within (h : ChunkOk t s c) : (∀ x, Within x c.live → Within x c.span) ∧
    Within (c.p - t.tagSize) c.span ∧ Within c.start c.span ∧ Within c.p c.span := by
  have henough := h.enough
  have ht := t.tagSize_cases
  simp only [Chunk.live, Chunk.span, Within]
  rcases h.kind with ⟨hp, hext, k, -, hk⟩ | ⟨hp, hext, hmax, -, -⟩
  · have hpos : 16 ≤ 2 ^ (4 + k) := Nat.le_of_dvd (by positivity) (sixteen_dvd k)
    exact ⟨by omega, by omega, by omega, by omega⟩
  · unfold maxAlloc at hmax
    unfold Target.hdrSize at *
    exact ⟨by omega, by omega, by omega, by omega⟩

theorem ChunkOk.bounds (h : ChunkOk t s c) : c.start ≤ c.p ∧ c.p + c.req ≤ c.start + c.ext := by
  have henough := h.enough
  rcases h.kind with ⟨hp, hext, -⟩ | ⟨hp, hext, -⟩
  · omega
  · unfold Target.hdrSize at *
    omega

theorem ChunkOk.tag_before (h : ChunkOk t s c) : c.start + t.tagSize ≤ c.p := by
  rcases h.kind with ⟨hp, -⟩ | ⟨hp, -⟩
  · omega
  · unfold Target.hdrSize at hp
    omega

theorem ChunkOk.large (h : ChunkOk t s c) (hlen : maxAlloc < c.len) : c.Large t s := by
  refine h.kind.resolve_left ?_
  rintro ⟨-, -, k, hk, hpow⟩
  have := pow_le_maxAlloc hk
  omega

theorem ChunkOk.small (h : ChunkOk t s c) (hlen : c.len ≤ maxAlloc) : c.Small t := by
  refine h.kind.resolve_right ?_
  rintro ⟨-, -, hmax, -⟩
  omega

theorem ChunkOk.frame (h : ChunkOk t s c) (hlen : s'.length (c.p - t.tagSize) = s.length (c.p - t.tagSize))
    (hblock : s'.block c.start = s.block c.start)
    (hends : ∀ e ∈ s.blks.map ends, c.start = e.1 + e.2 → maxAlloc < c.len → e ∈ s'.blks.map ends)
    (hsys : ∀ q ∈ s.sys, q ∈ s'.sys) : ChunkOk t s' c where
  tag := hlen ▸ h.tag
  enough := h.enough
  aligned := h.aligned
  inSystem := by
    obtain ⟨q, hq, hin⟩ := h.inSystem
    exact ⟨q, hsys q hq, hin⟩
  kind := by
    refine h.kind.imp_right ?_
    rintro ⟨hp, hext, hmax, heven, size, hsize, hstart, q, hq, hend⟩
    exact ⟨hp, hext, hmax, heven, size, hblock ▸ hends _ hsize hstart hmax, hblock ▸ hstart, q, hsys q hq,
      hblock ▸ hend⟩

theorem FreeOk.frame (h : FreeOk t s a) (hlen : s'.length a.1 = s.length a.1) (hsys : ∀ q ∈ s.sys, q ∈ s'.sys) :
    FreeOk t s' a where
  tag := hlen ▸ h.tag
  pow := h.pow
  aligned := h.aligned
  inSystem := by
    obtain ⟨q, hq, hin⟩ := h.inSystem
    exact ⟨q, hsys q hq, hin⟩

/-- The tag of another chunk is written. -/
theorem ChunkOk.frame_tag {p : ℕ × ℕ} {x v : ℕ} (h : ChunkOk t s c) (happ : Apart p c.span) (hx : Within x p)
    (hlength : s'.length = Function.update s.length x v) (hblock : s'.block = s.block) (hsys : s'.sys = s.sys)
    (hends : ∀ e ∈ s.blks.map ends, c.start = e.1 + e.2 → maxAlloc < c.len → e ∈ s'.blks.map ends) :
    ChunkOk t s' c := by
  have hne := happ.ne hx h.within.2.1
  apply h.frame
  · rw [hlength, Function.update_of_ne hne.symm]
  · rw [hblock]
  · exact hends
  · exact fun q hq => hsys ▸ hq

theorem FreeOk.within (h : FreeOk t s a) : Within a.1 a := by
  obtain ⟨k, -, hk⟩ := h.pow
  have hpos : 0 < 2 ^ (4 + k) := by positivity
  exact ⟨le_rfl, by omega⟩

theorem FreeOk.frame_tag {p : ℕ × ℕ} {x v : ℕ} (h : FreeOk t s a) (happ : Apart p a) (hx : Within x p)
    (hlength : s'.length = Function.update s.length x v) (hsys : s'.sys = s.sys) : FreeOk t s' a := by
  have hne := happ.ne hx h.within
  apply h.frame
  · rw [hlength, Function.update_of_ne hne.symm]
  · exact fun q hq => hsys ▸ hq

theorem BlkOk.unused_inSystem (h : BlkOk t s.sys b) : InSystem s (unused b) := by
  obtain ⟨q, hq, haddr, hsize⟩ := h.inSystem
  have hroom := h.room
  refine ⟨q, hq, ?_⟩
  simp only [unused]
  omega

theorem BlkOk.header_inSystem (h : BlkOk t s.sys b) : InSystem s (b.addr, t.blkSize) := by
  obtain ⟨q, hq, haddr, hsize⟩ := h.inSystem
  have hroom := h.room
  exact ⟨q, hq, by simp only; omega, by simp only; omega⟩

end facts

section steps

variable {t : Target} {s s' : State} {lv : List Chunk} {fr : List (ℕ × ℕ)}

theorem Inv.spans_inSystem (h : Inv t s lv fr) : ∀ p ∈ spans t s.blks lv fr, InSystem s p := by
  intro p hp
  simp only [spans, blkSpans, List.mem_append, List.mem_flatMap, List.mem_map, List.mem_cons, List.not_mem_nil,
    or_false] at hp
  rcases hp with ⟨b, hb, rfl | rfl⟩ | ⟨c, hc, rfl⟩ | hp
  · exact (h.blk b hb).unused_inSystem
  · exact (h.blk b hb).header_inSystem
  · exact (h.live c hc).inSystem
  · exact (h.free p hp).inSystem

section perms

variable {blks : List MemBlk}

theorem spans_chunk {l₁ l₂ : List Chunk} {c : Chunk} :
    (spans t blks (l₁ ++ c :: l₂) fr).Perm (c.span :: spans t blks (l₁ ++ l₂) fr) := by
  simpa only [spans, List.map_append, List.map_cons, List.append_assoc, List.cons_append] using
    @List.perm_middle _ c.span (blks.flatMap (blkSpans t) ++ l₁.map Chunk.span) (l₂.map Chunk.span ++ fr)

theorem spans_chunk_cons {c : Chunk} : (spans t blks (c :: lv) fr).Perm (c.span :: spans t blks lv fr) :=
  @spans_chunk t fr blks [] lv c

theorem spans_free {l₁ l₂ : List (ℕ × ℕ)} {a : ℕ × ℕ} :
    (spans t blks lv (l₁ ++ a :: l₂)).Perm (a :: spans t blks lv (l₁ ++ l₂)) := by
  simpa only [spans, List.append_assoc] using
    @List.perm_middle _ a (blks.flatMap (blkSpans t) ++ (lv.map Chunk.span ++ l₁)) l₂

theorem spans_blk {l₁ l₂ : List MemBlk} {b : MemBlk} :
    (spans t (l₁ ++ b :: l₂) lv fr).Perm (unused b :: (b.addr, t.blkSize) :: spans t (l₁ ++ l₂) lv fr) := by
  change (spans t (l₁ ++ b :: l₂) lv fr).Perm (blkSpans t b ++ spans t (l₁ ++ l₂) lv fr)
  simp only [spans, List.flatMap_append, List.flatMap_cons, List.append_assoc]
  exact List.perm_append_comm_assoc ..

theorem mem_spans_live {c : Chunk} (hc : c ∈ lv) : c.span ∈ spans t blks lv fr := by
  simp only [spans, List.mem_append, List.mem_map]
  exact .inr (.inl ⟨c, hc, rfl⟩)

theorem mem_spans_free {a : ℕ × ℕ} (ha : a ∈ fr) : a ∈ spans t blks lv fr := by
  simp only [spans, List.mem_append]
  exact .inr (.inr ha)

end perms

theorem Inv.addChunk (h : Inv t s lv fr) {c : Chunk} (hc : ChunkOk t s c)
    (hapart : ∀ q ∈ spans t s.blks lv fr, Apart c.span q) : Inv t s (c :: lv) fr where
  apart := pairwise_perm (spans_chunk_cons).symm (List.pairwise_cons.2 ⟨hapart, h.apart⟩)
  nodup := h.nodup
  blk := h.blk
  live := List.forall_mem_cons.2 ⟨hc, h.live⟩
  free := h.free
  lists := h.lists

/-- The head of a free list comes into use. -/
theorem Inv.getFromFrl (h : Inv t s lv fr) {k a req : ℕ} {rest : List ℕ} (hk : s.freeList k = a :: rest)
    (hreq : req + t.tagSize ≤ 2 ^ (4 + k)) :
    ∃ fr', Inv t { s with
        freeList := Function.update s.freeList k rest
        length := Function.update s.length a (allocated (s.length a)) }
      (⟨a, 2 ^ (4 + k), a + t.tagSize, 2 ^ (4 + k), req⟩ :: lv) fr' ∧ ∀ b ∈ fr, b.1 ≠ a → b ∈ fr' := by
  obtain ⟨⟨a', len⟩, tl, hfilter, rfl, rfl⟩ := List.map_eq_cons_iff.1 ((h.lists k).symm.trans hk)
  obtain ⟨l₁, l₂, rfl, hnone, hlen, htail⟩ := List.filter_eq_cons_iff.1 hfilter
  obtain rfl : len = 2 ^ (4 + k) := by simpa using hlen
  have hfree := h.free (a', 2 ^ (4 + k)) (by simp)
  obtain ⟨hnew, hrest⟩ := List.pairwise_cons.1 (pairwise_perm spans_free h.apart)
  refine ⟨l₁ ++ l₂, ⟨?_, h.nodup, h.blk, ?_, ?_, ?_⟩, ?_⟩
  · exact pairwise_perm (spans_chunk_cons).symm (List.pairwise_cons.2 ⟨hnew, hrest⟩)
  · intro c hc
    rcases List.mem_cons.1 hc with rfl | hc
    · refine ⟨?_, hreq, hfree.aligned, hfree.inSystem, .inl ⟨rfl, rfl, hfree.pow⟩⟩
      have htag := hfree.tag
      simp only [Nat.add_sub_cancel, Function.update_self] at htag ⊢
      rw [htag, allocated_of_even (even_pow k)]
    · exact (h.live c hc).frame_tag (hnew c.span (mem_spans_live hc)) hfree.within rfl rfl rfl fun e he _ _ => he
  · intro b hb
    have hb' := h.free b (by simp only [List.mem_append, List.mem_cons] at hb ⊢; tauto)
    exact hb'.frame_tag (hnew b (mem_spans_free hb)) hfree.within rfl rfl
  · intro j
    by_cases hj : j = k
    · subst hj
      simp only [Function.update_self]
      rw [List.filter_append, List.filter_eq_nil_iff.2 hnone, List.nil_append, htail]
    · have hpow : ¬ 2 ^ (4 + k) = 2 ^ (4 + j) := fun h => hj (by have := Nat.pow_right_injective le_rfl h; omega)
      simp only [Function.update_of_ne hj]
      rw [h.lists j, List.filter_append, List.filter_append, List.filter_cons_of_neg (by simpa using hpow)]
  · intro b hb hne
    simp only [List.mem_append, List.mem_cons] at hb ⊢
    rcases hb with hb | rfl | hb
    · exact .inl hb
    · exact absurd rfl hne
    · exact .inr hb

theorem carve_spec {amount : ℕ} {blks : List MemBlk} {p : ℕ × List MemBlk} (h : carve amount blks = some p) :
    ∃ l₁ b l₂, blks = l₁ ++ b :: l₂ ∧ amount ≤ b.free ∧
      p = ((unused b).1, l₁ ++ { b with free := b.free - amount } :: l₂) := by
  induction blks generalizing p with
  | nil => simp [carve] at h
  | cons b blks ih =>
    rw [carve] at h
    split_ifs at h with hfree
    · obtain rfl := Option.some.inj h
      exact ⟨[], b, blks, rfl, hfree, rfl⟩
    · obtain ⟨p', hp', rfl⟩ := Option.map_eq_some_iff.1 h
      obtain ⟨l₁, b', l₂, rfl, hb', rfl⟩ := ih hp'
      exact ⟨b :: l₁, b', l₂, rfl, hb', rfl⟩

/-- A chunk is cut off the unused space of a block. -/
theorem Inv.carve (h : Inv t s lv fr) {k req : ℕ} {l₁ l₂ : List MemBlk} {b : MemBlk} (hb : s.blks = l₁ ++ b :: l₂)
    (hk : k ≤ 10) (hfree : 2 ^ (4 + k) ≤ b.free) (hreq : req + t.tagSize ≤ 2 ^ (4 + k)) :
    Inv t { s with
        blks := l₁ ++ { b with free := b.free - 2 ^ (4 + k) } :: l₂
        length := Function.update s.length (unused b).1 (allocated (2 ^ (4 + k))) }
      (⟨(unused b).1, 2 ^ (4 + k), (unused b).1 + t.tagSize, 2 ^ (4 + k), req⟩ :: lv) fr := by
  have hbok := h.blk b (by simp [hb])
  have hroom := hbok.room
  have hpos : 0 < 2 ^ (4 + k) := by positivity
  have hin : Within (unused b).1 ((unused b).1, 2 ^ (4 + k)) := ⟨le_rfl, by simp only; omega⟩
  have hnewb : unused { b with free := b.free - 2 ^ (4 + k) } =
      ((unused b).1 + 2 ^ (4 + k), b.free - 2 ^ (4 + k)) := by
    simp only [unused, Prod.mk.injEq, and_true]
    omega
  have hold : unused b = ((unused b).1, 2 ^ (4 + k) + (b.free - 2 ^ (4 + k))) := by
    simp only [unused, Prod.mk.injEq, true_and]
    omega
  have hpair := pairwise_perm (hb ▸ spans_blk) h.apart
  rw [hold] at hpair
  have hsplit := pairwise_split hpair
  have hnew := (List.pairwise_cons.1 hsplit).1
  have hends : s.blks.map ends = (l₁ ++ { b with free := b.free - 2 ^ (4 + k) } :: l₂).map ends := by simp [hb, ends]
  refine ⟨?_, ?_, ?_, ?_, ?_, h.lists⟩
  · refine pairwise_perm ?_ hsplit
    rw [← hnewb]
    refine List.Perm.symm (spans_chunk_cons.trans ?_)
    exact spans_blk.cons _
  · have hnodup := h.nodup
    simpa [hb] using hnodup
  · intro b' hb'
    simp only [List.mem_append, List.mem_cons] at hb'
    rcases hb' with hb' | rfl | hb'
    · exact h.blk b' (by simp [hb, hb'])
    · refine ⟨by simp only; omega, ?_, hbok.inSystem⟩
      rw [hnewb]
      simp only
      rw [Nat.add_right_comm]
      exact (Nat.dvd_add_right hbok.aligned).2 (t.word_dvd_pow k)
    · exact h.blk b' (by simp [hb, hb'])
  · intro c hc
    rcases List.mem_cons.1 hc with rfl | hc
    · refine ⟨?_, hreq, hbok.aligned, ?_, .inl ⟨rfl, rfl, k, hk, rfl⟩⟩
      · simp only [Nat.add_sub_cancel, Function.update_self]
        exact allocated_of_even (even_pow k)
      · obtain ⟨q, hq, hqb⟩ := hbok.unused_inSystem
        rw [hold] at hqb
        exact ⟨q, hq, by simp only [Chunk.span] at hqb ⊢; omega⟩
    · have happ := hnew c.span (List.mem_cons_of_mem _ (List.mem_cons_of_mem _ (mem_spans_live hc)))
      exact (h.live c hc).frame_tag happ hin rfl rfl rfl fun e he _ _ => hends ▸ he
  · intro a ha
    have happ := hnew a (List.mem_cons_of_mem _ (List.mem_cons_of_mem _ (mem_spans_free ha)))
    exact (h.free a ha).frame_tag happ hin rfl rfl

/-- The system gives a block. -/
theorem Inv.grow (h : Inv t s lv fr) {ptr size : ℕ} {b : MemBlk}
    (hfresh : ∀ q ∈ s.sys, q.1 + q.2 ≤ ptr ∨ ptr + size ≤ q.1) (haddr : b.addr = ptr) (hsize : b.size ≤ size)
    (hblks : s'.blks = b :: s.blks) (hsys : s'.sys = (ptr, size) :: s.sys) (hlists : s'.freeList = s.freeList)
    (hroom : b.free + t.blkSize ≤ b.size) (haligned : t.memWordSize ∣ (unused b).1 + t.tagSize)
    (hlength : ∀ x, ¬ Within x (ptr, size) → s'.length x = s.length x)
    (hblock : ∀ x, ¬ Within x (ptr, size) → s'.block x = s.block x) : Inv t s' lv fr := by
  have ht := t.tagSize_cases
  have hmem : ∀ q ∈ s.sys, q ∈ s'.sys := fun q hq => by simp [hsys, hq]
  have hout : ∀ p x, InSystem s p → Within x p → ¬ Within x (ptr, size) := by
    rintro p x ⟨q, hq, hpq⟩ hx
    have hq' := hfresh q hq
    simp only [Within] at *
    omega
  refine ⟨?_, ?_, ?_, ?_, ?_, fun k => by rw [hlists, h.lists]⟩
  · have hold : ∀ p, (∀ x, Within x p → Within x (ptr, size)) → ∀ q ∈ spans t s.blks lv fr, Apart p q :=
      fun p hp q hq x hx hxq => hout q x (h.spans_inSystem q hq) hxq (hp x hx)
    rw [hblks]
    change (unused b :: (b.addr, t.blkSize) :: spans t s.blks lv fr).Pairwise Apart
    rw [List.pairwise_cons, List.forall_mem_cons, List.pairwise_cons]
    refine ⟨⟨fun x hx hxb => ?_, hold _ fun x hx => ?_⟩, hold _ fun x hx => ?_, h.apart⟩
    all_goals
      simp only [unused, Within] at *
      omega
  · rw [hblks, List.map_cons, List.nodup_cons]
    refine ⟨?_, h.nodup⟩
    rw [List.mem_map]
    rintro ⟨b', hb', heq⟩
    have hb'' := h.blk b' hb'
    obtain ⟨q, hq, hqa, hqs⟩ := hb''.inSystem
    have hq' := hfresh q hq
    have hroom' := hb''.room
    simp only [Target.blkSize] at *
    omega
  · intro b' hb'
    rw [hblks, List.mem_cons] at hb'
    rcases hb' with rfl | hb'
    · exact ⟨hroom, haligned, (ptr, size), by simp [hsys], haddr.symm, hsize⟩
    · have hb'' := h.blk b' hb'
      obtain ⟨q, hq, hqb⟩ := hb''.inSystem
      exact ⟨hb''.room, hb''.aligned, q, hmem q hq, hqb⟩
  · intro c hc
    have hc' := h.live c hc
    refine hc'.frame (hlength _ (hout _ _ hc'.inSystem hc'.within.2.1))
      (hblock _ (hout _ _ hc'.inSystem hc'.within.2.2.1)) (fun e he _ _ => ?_) hmem
    rw [hblks, List.map_cons]
    exact List.mem_cons_of_mem _ he
  · intro a ha
    have ha' := h.free a ha
    exact ha'.frame (hlength _ (hout _ _ ha'.inSystem ha'.within)) hmem

/-- The space behind the unused space of a new block. -/
theorem roundUp_sys {amount : ℕ} (h : amount + t.blkSize + t.hdrSize + 65535 < 2 ^ (8 * t.tagSize)) :
    ∃ n, t.roundUp (amount + t.blkSize + t.hdrSize) 65536 = 65536 * n ∧
      amount + t.blkSize + t.hdrSize ≤ 65536 * n ∧ 65536 * n < 2 ^ (8 * t.tagSize) := by
  refine ⟨(amount + t.blkSize + t.hdrSize + 65535) / 65536, ?_, by omega, by omega⟩
  rw [Target.roundUp, Nat.mod_eq_of_lt (by simpa using h), Nat.mul_comm]

theorem Target.sub_eq (t : Target) {a b : ℕ} (hb : b ≤ a) (ha : a < 2 ^ (8 * t.tagSize)) : t.sub a b = a - b := by
  rw [Target.sub, show a + (2 ^ (8 * t.tagSize) - b) = a - b + 2 ^ (8 * t.tagSize) by omega, Nat.add_mod_right,
    Nat.mod_eq_of_lt (by omega)]

theorem roundUp_zero (t : Target) : t.roundUp (0 + t.blkSize + t.hdrSize) 65536 = 65536 := by
  obtain ⟨_ | _⟩ := t <;> rfl

/-- A block that is all for small chunks. -/
theorem Inv.memFromSys_zero (h : Inv t s lv fr) {malloc : ℕ → Option ℕ} (hm : MallocFor t s malloc) {ptr : ℕ}
    (hptr : malloc 65536 = some ptr) :
    Inv t { s with blks := ⟨ptr, 65536 - t.blkSize, 65536⟩ :: s.blks, sys := (ptr, 65536) :: s.sys } lv fr := by
  obtain ⟨hal, -, hfresh⟩ := hm _ _ hptr
  have ht := t.tagSize_cases
  refine h.grow (b := ⟨ptr, 65536 - t.blkSize, 65536⟩) hfresh rfl le_rfl rfl rfl rfl ?_ ?_ (fun _ _ => rfl)
    fun _ _ => rfl
  · simp only [Target.blkSize]
    omega
  · have heq : (unused ⟨ptr, 65536 - t.blkSize, 65536⟩).1 + t.tagSize = ptr + t.memWordSize * 2 := by
      simp only [unused, Target.blkSize, Target.memWordSize]
      omega
    rw [heq]
    exact (Nat.dvd_add_right hal).2 (Nat.dvd_mul_right _ _)

/-- The block that a large chunk is at the end of. -/
def largeBlk (t : Target) (ptr size amount : ℕ) : MemBlk :=
  ⟨ptr, size - amount - t.blkSize - t.hdrSize, size - (amount + t.hdrSize)⟩

/-- Where the header of the large chunk is. -/
def largeHeader (t : Target) (ptr size amount : ℕ) : ℕ := ptr + t.blkSize + (largeBlk t ptr size amount).free

/-- The state with a new block and the large chunk in it. -/
def largeState (t : Target) (s : State) (ptr size amount : ℕ) : State where
  blks := largeBlk t ptr size amount :: s.blks
  freeList := s.freeList
  length := Function.update s.length (largeHeader t ptr size amount + t.hdrSize - t.tagSize) (allocated amount)
  block := Function.update s.block (largeHeader t ptr size amount) ptr
  sys := (ptr, size) :: s.sys

theorem memFromSys_large (malloc : ℕ → Option ℕ) (s : State) {amount : ℕ} (hne : amount ≠ 0)
    (hwrap : amount + t.blkSize + t.hdrSize + 65535 < 2 ^ (8 * t.tagSize)) :
    ∃ n, amount + t.blkSize + t.hdrSize ≤ 65536 * n ∧
      memFromSys t malloc amount s = match malloc (65536 * n) with
        | none => (none, s)
        | some ptr =>
            (some (largeHeader t ptr (65536 * n) amount + t.hdrSize), largeState t s ptr (65536 * n) amount) := by
  obtain ⟨n, hround, hle, hlt⟩ := roundUp_sys hwrap
  have hsub : t.sub (65536 * n) amount = 65536 * n - amount := t.sub_eq (by omega) hlt
  have hsub₁ : t.sub (65536 * n - amount) t.blkSize = 65536 * n - amount - t.blkSize :=
    t.sub_eq (by omega) (by omega)
  have hsub₂ : t.sub (65536 * n - amount - t.blkSize) t.hdrSize = 65536 * n - amount - t.blkSize - t.hdrSize :=
    t.sub_eq (by omega) (by omega)
  have hsub₃ : t.sub (65536 * n) (amount + t.hdrSize) = 65536 * n - (amount + t.hdrSize) := t.sub_eq (by omega) hlt
  refine ⟨n, hle, ?_⟩
  simp only [memFromSys, hround, hsub, hsub₁, hsub₂, hsub₃, hne, ne_eq, not_false_eq_true, if_true]
  rfl

section large

variable {ptr size amount : ℕ}

theorem unused_largeBlk (hle : amount + t.blkSize + t.hdrSize ≤ size) :
    unused (largeBlk t ptr size amount) = (ptr + t.blkSize, size - amount - t.blkSize - t.hdrSize) := by
  simp only [unused, largeBlk, Prod.mk.injEq, and_true]
  omega

theorem largeHeader_end (ptr : ℕ) (hle : amount + t.blkSize + t.hdrSize ≤ size) :
    largeHeader t ptr size amount + t.hdrSize + amount = ptr + size := by
  simp only [largeHeader, largeBlk]
  omega

theorem Inv.largeState (h : Inv t s lv fr) (hle : amount + t.blkSize + t.hdrSize ≤ size)
    (hal : t.memWordSize ∣ ptr) (hfresh : ∀ q ∈ s.sys, q.1 + q.2 ≤ ptr ∨ ptr + size ≤ q.1) :
    Inv t (largeState t s ptr size amount) lv fr := by
  have ht := t.tagSize_cases
  have hend := largeHeader_end ptr hle
  refine h.grow (b := largeBlk t ptr size amount) hfresh rfl (Nat.sub_le _ _) rfl rfl rfl ?_ ?_ ?_ ?_
  · simp only [largeBlk]
    omega
  · have heq : ptr + t.blkSize + t.tagSize = ptr + t.memWordSize * 2 := by
      simp only [Target.blkSize, Target.memWordSize]
      omega
    rw [unused_largeBlk hle, heq]
    exact (Nat.dvd_add_right hal).2 (Nat.dvd_mul_right _ _)
  · intro x hx
    apply Function.update_of_ne
    rintro rfl
    apply hx
    simp only [Within, largeHeader, Target.hdrSize] at hend ⊢
    omega
  · intro x hx
    apply Function.update_of_ne
    rintro rfl
    apply hx
    simp only [Within, largeHeader, Target.hdrSize] at hend ⊢
    omega

theorem largeChunk_ok {req : ℕ} (hle : amount + t.blkSize + t.hdrSize ≤ size) (hal : t.memWordSize ∣ ptr + size)
    (hmax : maxAlloc < amount) (hword : t.memWordSize ∣ amount) (hreq : req + t.tagSize ≤ amount) :
    ChunkOk t (largeState t s ptr size amount) ⟨largeHeader t ptr size amount, amount + t.hdrSize,
      largeHeader t ptr size amount + t.hdrSize, amount, req⟩ := by
  have hend := largeHeader_end ptr hle
  have heven : 2 ∣ amount := (Dvd.intro _ rfl : 2 ∣ t.memWordSize).trans hword
  refine ⟨?_, hreq, ?_, ⟨(ptr, size), List.mem_cons_self, ?_⟩, .inr ⟨rfl, rfl, hmax, heven, ?_⟩⟩
  · simp only [largeState, Function.update_self]
    exact allocated_of_even heven
  · rw [← hend] at hal
    exact (Nat.dvd_add_left hword).1 hal
  · simp only [Chunk.span, largeHeader] at hend ⊢
    omega
  · have hblock : (MemMgr.largeState t s ptr size amount).block (largeHeader t ptr size amount) = ptr :=
      Function.update_self ..
    rw [hblock]
    refine ⟨size - (amount + t.hdrSize), List.mem_cons_self, ?_, (ptr, size), List.mem_cons_self, rfl, ?_⟩
    · simp only
      omega
    · simp only
      omega

end large

/-- A large chunk at the end of a block of its own. -/
theorem Inv.memFromSys (h : Inv t s lv fr) {malloc : ℕ → Option ℕ} (hm : MallocFor t s malloc) {amount req : ℕ}
    (hmax : maxAlloc < amount) (hword : t.memWordSize ∣ amount) (hreq : req + t.tagSize ≤ amount)
    (hwrap : amount + t.blkSize + t.hdrSize + 65535 < 2 ^ (8 * t.tagSize)) {p : ℕ}
    (hp : memFromSys t malloc amount s = (some p, s')) :
    ∃ c, c.live = (p, req) ∧ Inv t s' (c :: lv) fr := by
  obtain ⟨n, hle, heq⟩ := memFromSys_large malloc s (by omega : amount ≠ 0) hwrap
  rw [heq] at hp
  cases hptr : malloc (65536 * n) with
  | none => simp [hptr] at hp
  | some ptr =>
    simp only [hptr, Prod.mk.injEq, Option.some.injEq] at hp
    obtain ⟨rfl, rfl⟩ := hp
    obtain ⟨hal, -, hfresh⟩ := hm _ _ hptr
    have hsize : t.memWordSize ∣ 65536 * n := (t.word_dvd.trans (by norm_num : 16 ∣ 65536)).mul_right n
    have hok := largeChunk_ok (s := s) hle ((Nat.dvd_add_right hal).2 hsize) hmax hword hreq
    refine ⟨_, rfl, (h.largeState hle hal hfresh).addChunk hok ?_⟩
    -- what was there is in the older blocks, and what is new is before the header
    intro q hq x hx hxq
    change q ∈ unused (largeBlk t ptr (65536 * n) amount) :: (ptr, t.blkSize) :: spans t s.blks lv fr at hq
    rw [unused_largeBlk hle, List.mem_cons, List.mem_cons] at hq
    have hend := largeHeader_end ptr hle
    simp only [Chunk.span, Within, largeHeader, largeBlk] at hx hend
    rcases hq with rfl | rfl | hq
    · simp only [Within] at hxq
      omega
    · simp only [Within] at hxq
      omega
    · obtain ⟨r, hr, hrq⟩ := h.spans_inSystem q hq
      have hr' := hfresh r hr
      simp only [Within] at hxq
      omega

/-! ### Freeing -/

theorem Inv.freeSmall {l₁ l₂ : List Chunk} {c : Chunk} (h : Inv t s (l₁ ++ c :: l₂) fr) (hc : c.Small t) :
    Inv t { s with
        length := Function.update s.length (c.p - t.tagSize) c.len
        freeList := Function.update s.freeList (sizeToClass c.len)
          ((c.p - t.tagSize) :: s.freeList (sizeToClass c.len)) }
      (l₁ ++ l₂) ((c.p - t.tagSize, c.len) :: fr) := by
  have hok := h.live c (by simp)
  obtain ⟨hp, hext, k, hk, hlen⟩ := hc
  have hstart : c.p - t.tagSize = c.start := by omega
  have hspan : c.span = (c.start, c.len) := by rw [Chunk.span, hext]
  have hpair := pairwise_perm spans_chunk h.apart
  have hnew := (List.pairwise_cons.1 hpair).1
  have hin := hok.within.2.2.1
  rw [hstart]
  refine ⟨?_, h.nodup, h.blk, ?_, ?_, ?_⟩
  · rw [hspan] at hpair
    exact pairwise_perm (@spans_free t (l₁ ++ l₂) s.blks [] fr (c.start, c.len)).symm hpair
  · intro c' hc'
    have hok' := h.live c' (by simp only [List.mem_append, List.mem_cons] at hc' ⊢; tauto)
    exact hok'.frame_tag (hnew c'.span (mem_spans_live hc')) hin rfl rfl rfl fun e he _ _ => he
  · intro a ha
    rcases List.mem_cons.1 ha with rfl | ha
    · refine ⟨by simp, ⟨k, hk, hlen⟩, by rw [← hp]; exact hok.aligned, ?_⟩
      exact hspan ▸ hok.inSystem
    · exact (h.free a ha).frame_tag (hnew a (mem_spans_free ha)) hin rfl rfl
  · intro j
    rw [hlen, sizeToClass_pow hk]
    by_cases hj : j = k
    · subst hj
      simp [h.lists]
    · have hpow : ¬ 2 ^ (4 + k) = 2 ^ (4 + j) := fun h => hj (by have := Nat.pow_right_injective le_rfl h; omega)
      simp only [Function.update_of_ne hj]
      rw [h.lists j, List.filter_cons_of_neg (by simpa using hpow)]

/-- The block of a large chunk. -/
theorem Inv.block_of_large {c : Chunk} (h : Inv t s lv fr) (hc : c.Large t s) :
    ∃ l₁ b l₂, s.blks = l₁ ++ b :: l₂ ∧ b.addr = s.block c.start ∧ (unused b).1 + b.free = c.start ∧
      (∃ q ∈ s.sys, q.1 = b.addr ∧ q.1 + q.2 = c.start + c.ext) ∧
      ∀ len, s.blks.map (extendBlk b.addr len) = l₁ ++ { b with free := b.free + len, size := b.size + len } :: l₂ := by
  obtain ⟨-, -, -, -, size, hsize, hstart, q, hq, hqa, hqe⟩ := hc
  obtain ⟨b, hb, hends⟩ := List.mem_map.1 hsize
  obtain ⟨haddr, rfl⟩ := Prod.mk.inj hends
  obtain ⟨l₁, l₂, hl⟩ := List.append_of_mem hb
  have hroom := (h.blk b hb).room
  have hother : ∀ b' ∈ l₁ ++ l₂, b'.addr ≠ b.addr := by
    have hnodup := h.nodup
    rw [hl, List.map_append, List.map_cons, List.nodup_middle, List.nodup_cons, ← List.map_append] at hnodup
    exact fun b' hb' heq => hnodup.1 (List.mem_map.2 ⟨b', hb', heq⟩)
  have hsame : ∀ l : List MemBlk, (∀ b' ∈ l, b' ∈ l₁ ++ l₂) → ∀ len, l.map (extendBlk b.addr len) = l := by
    intro l hl len
    refine (List.map_congr_left fun b' hb' => ?_).trans (List.map_id l)
    exact if_neg (hother b' (hl b' hb'))
  refine ⟨l₁, b, l₂, hl, haddr, ?_, ⟨q, hq, hqa.trans haddr.symm, hqe⟩, fun len => ?_⟩
  · simp only [unused]
    omega
  · rw [hl, List.map_append, List.map_cons, hsame l₁ (fun b' hb' => by simp [hb']),
      hsame l₂ (fun b' hb' => by simp [hb']), extendBlk, if_pos rfl]

/-- The space of a large chunk goes back to the end of its block. -/
theorem Inv.freeLarge {m₁ m₂ : List Chunk} {c : Chunk} {l₁ l₂ : List MemBlk} {b : MemBlk}
    (h : Inv t s (m₁ ++ c :: m₂) fr) (hb : s.blks = l₁ ++ b :: l₂) (hadj : (unused b).1 + b.free = c.start)
    (hsys : ∃ q ∈ s.sys, q.1 = b.addr ∧ q.1 + q.2 = c.start + c.ext) :
    Inv t { s with
        length := Function.update s.length (c.p - t.tagSize) c.len
        blks := l₁ ++ { b with free := b.free + c.ext, size := b.size + c.ext } :: l₂ } (m₁ ++ m₂) fr := by
  have hok := h.live c (by simp)
  have hbok := h.blk b (by simp [hb])
  have hroom := hbok.room
  have hnewb : unused { b with free := b.free + c.ext, size := b.size + c.ext } = ((unused b).1, b.free + c.ext) := by
    simp only [unused, Prod.mk.injEq, and_true]
    omega
  have hpair := pairwise_perm spans_chunk h.apart
  have hnew := (List.pairwise_cons.1 hpair).1
  have hin := hok.within.2.1
  have hpos := hok.within.2.2.1
  have hpair' : (((unused b).1, b.free + c.ext) :: (b.addr, t.blkSize) ::
      spans t (l₁ ++ l₂) (m₁ ++ m₂) fr).Pairwise Apart := by
    refine pairwise_merge (pairwise_perm ?_ hpair)
    rw [hb, hadj]
    exact (spans_blk.cons _).trans (List.Perm.swap _ _ _)
  refine ⟨?_, ?_, ?_, ?_, ?_, h.lists⟩
  · rw [← hnewb] at hpair'
    exact pairwise_perm spans_blk.symm hpair'
  · have hnodup := h.nodup
    simpa [hb] using hnodup
  · intro b' hb'
    simp only [List.mem_append, List.mem_cons] at hb'
    rcases hb' with hb' | rfl | hb'
    · exact h.blk b' (by simp [hb, hb'])
    · refine ⟨by simp only; omega, by rw [hnewb]; exact hbok.aligned, ?_⟩
      obtain ⟨q, hq, hqa, hqe⟩ := hsys
      refine ⟨q, hq, hqa, ?_⟩
      simp only [unused] at hadj ⊢
      omega
    · exact h.blk b' (by simp [hb, hb'])
  · intro c' hc'
    have hok' := h.live c' (by simp only [List.mem_append, List.mem_cons] at hc' ⊢; tauto)
    refine hok'.frame_tag (hnew c'.span (mem_spans_live hc')) hin rfl rfl rfl fun e he hstart _ => ?_
    -- no other chunk is at the end of the block
    have hother : e ≠ ends b := by
      rintro rfl
      refine (hnew c'.span (mem_spans_live hc')).ne hpos hok'.within.2.2.1 ?_
      simp only [ends, unused] at hstart hadj
      omega
    simp only [hb, List.map_append, List.map_cons, List.mem_append, List.mem_cons] at he ⊢
    tauto
  · intro a ha
    exact (h.free a ha).frame_tag (hnew a (mem_spans_free ha)) hin rfl rfl

/-! ### Calls -/

theorem Inv.getFromBlks (h : Inv t s lv fr) {k req p : ℕ} (hk : k ≤ 10) (hreq : req + t.tagSize ≤ 2 ^ (4 + k))
    (hp : getFromBlks t (2 ^ (4 + k)) s = some (p, s')) : ∃ c, c.live = (p, req) ∧ Inv t s' (c :: lv) fr := by
  obtain ⟨q, hq, hpair⟩ := Option.map_eq_some_iff.1 hp
  obtain ⟨l₁, b, l₂, hb, hfree, rfl⟩ := carve_spec hq
  obtain ⟨rfl, rfl⟩ := Prod.mk.inj hpair
  exact ⟨_, rfl, h.carve hb hk hfree hreq⟩

theorem memFromSys_zero (malloc : ℕ → Option ℕ) (s : State) :
    memFromSys t malloc 0 s = match malloc 65536 with
      | none => (none, s)
      | some ptr => (some (ptr + t.blkSize),
          { s with blks := ⟨ptr, 65536 - t.blkSize, 65536⟩ :: s.blks, sys := (ptr, 65536) :: s.sys }) := by
  have hsub : t.sub (t.sub 65536 0) t.blkSize = 65536 - t.blkSize := by obtain ⟨_ | _⟩ := t <;> rfl
  simp only [memFromSys, roundUp_zero, hsub, ne_eq, not_true_eq_false, if_false]

theorem Inv.getFromBlk (h : Inv t s lv fr) {malloc : ℕ → Option ℕ} (hm : MallocFor t s malloc) {k req p : ℕ}
    (hk : k ≤ 10) (hreq : req + t.tagSize ≤ 2 ^ (4 + k)) (hp : getFromBlk t malloc (2 ^ (4 + k)) s = (some p, s')) :
    ∃ c, c.live = (p, req) ∧ Inv t s' (c :: lv) fr := by
  rw [MemMgr.getFromBlk, MemMgr.memFromSys_zero] at hp
  split at hp
  next p' s'' hfound =>
    obtain ⟨hpp, rfl⟩ := Prod.mk.inj hp
    obtain rfl := Option.some.inj hpp
    exact h.getFromBlks hk hreq hfound
  next =>
    cases hptr : malloc 65536 with
    | none => simp [hptr] at hp
    | some ptr =>
      simp only [hptr] at hp
      split at hp
      next p' s'' hfound =>
        obtain ⟨hpp, rfl⟩ := Prod.mk.inj hp
        obtain rfl := Option.some.inj hpp
        exact (h.memFromSys_zero hm hptr).getFromBlks hk hreq hfound
      next => simp at hp

theorem getFromBlk_none {malloc : ℕ → Option ℕ} {amount : ℕ} (ha : amount ≤ maxAlloc)
    (hp : getFromBlk t malloc amount s = (none, s')) : s' = s := by
  rw [getFromBlk, memFromSys_zero] at hp
  split at hp
  next => simp at hp
  next =>
    cases hptr : malloc 65536 with
    | none =>
      simp only [hptr, Prod.mk.injEq, true_and] at hp
      exact hp.symm
    | some ptr =>
      -- the new block has room
      have hroom : amount ≤ 65536 - t.blkSize := by
        have ht := t.tagSize_cases
        unfold maxAlloc at ha
        unfold Target.blkSize
        omega
      simp [hptr, getFromBlks, carve, hroom] at hp

theorem getFromFrl_spec {k a : ℕ} (hp : getFromFrl k s = some (a, s')) :
    ∃ rest, s.freeList k = a :: rest ∧ s' = { s with
      freeList := Function.update s.freeList k rest
      length := Function.update s.length a (allocated (s.length a)) } := by
  unfold getFromFrl at hp
  split at hp
  next => simp at hp
  next free rest hfree =>
    obtain ⟨rfl, rfl⟩ := Prod.mk.inj (Option.some.inj hp)
    exact ⟨rest, hfree, rfl⟩

/-- The rounding of a request that does not wrap around. -/
theorem NoWrap.roundUp {amount : ℕ} (h : NoWrap t amount) :
    ∃ m, t.roundUp (amount + t.tagSize) t.memWordSize = m ∧ t.memWordSize ∣ m ∧ amount + t.tagSize ≤ m ∧
      m + t.blkSize + t.hdrSize + 65535 < 2 ^ (8 * t.tagSize) := by
  have ht := t.tagSize_cases
  have hword : 0 < t.memWordSize := by
    unfold Target.memWordSize
    omega
  unfold NoWrap at h
  have hlt := Nat.lt_div_mul_add (a := amount + t.tagSize + (t.memWordSize - 1)) hword
  refine ⟨_, rfl, Nat.dvd_mul_left _ _, ?_, ?_⟩
  all_goals rw [Target.roundUp, Nat.mod_eq_of_lt (by simp only [Target.memWordSize, Target.blkSize] at *; omega)]
  · omega
  · exact h

theorem Inv.cgMemAlloc (h : Inv t s lv fr) {malloc : ℕ → Option ℕ} (hm : MallocFor t s malloc) {amount p : ℕ}
    (hwrap : NoWrap t amount) (hp : cgMemAlloc t malloc amount s = (some p, s')) :
    ∃ c fr', c.live = (p, amount) ∧ Inv t s' (c :: lv) fr' ∧ ∀ b ∈ fr, b.1 + t.tagSize ≠ p → b ∈ fr' := by
  obtain ⟨m, hround, hword, hle, hroom⟩ := hwrap.roundUp
  rw [MemMgr.cgMemAlloc, hround] at hp
  split_ifs at hp with hzero
  · simp at hp
  simp only at hp
  split_ifs at hp with hmax
  · obtain ⟨c, hc, hinv⟩ := h.memFromSys hm hmax hword hle hroom hp
    exact ⟨c, fr, hc, hinv, fun b hb _ => hb⟩
  · have hmin : max m (2 * t.tagSize) ≤ maxAlloc := by
      have ht := t.tagSize_cases
      unfold maxAlloc at *
      omega
    obtain ⟨hk, hclass⟩ := sizeToClass_spec hmin
    have hreq : amount + t.tagSize ≤ 2 ^ (4 + sizeToClass (max m (2 * t.tagSize))) := by omega
    split at hp
    next chunk s'' hfrl =>
      obtain ⟨hpp, rfl⟩ := Prod.mk.inj hp
      obtain rfl := Option.some.inj hpp
      obtain ⟨rest, hfree, rfl⟩ := getFromFrl_spec hfrl
      obtain ⟨fr', hinv, hfr⟩ := h.getFromFrl hfree hreq
      exact ⟨_, fr', rfl, hinv, fun b hb hne => hfr b hb fun heq => hne (by rw [heq])⟩
    next =>
      obtain ⟨c, hc, hinv⟩ := h.getFromBlk hm hk hreq hp
      exact ⟨c, fr, hc, hinv, fun b hb _ => hb⟩

/-- A request that fails leaves everything as it is. -/
theorem cgMemAlloc_none {malloc : ℕ → Option ℕ} {amount : ℕ} (hp : cgMemAlloc t malloc amount s = (none, s')) :
    s' = s := by
  unfold cgMemAlloc at hp
  split_ifs at hp with hzero
  · exact (Prod.mk.inj hp).2.symm
  simp only at hp
  split_ifs at hp with hmax
  · unfold memFromSys at hp
    simp only at hp
    split at hp
    next => exact (Prod.mk.inj hp).2.symm
    next => split_ifs at hp <;> simp at hp
  · have hmin : max (t.roundUp (amount + t.tagSize) t.memWordSize) (2 * t.tagSize) ≤ maxAlloc := by
      have ht := t.tagSize_cases
      unfold maxAlloc at *
      omega
    split at hp
    next => simp at hp
    next => exact getFromBlk_none (pow_le_maxAlloc (sizeToClass_spec hmin).1) hp

/-- What `CgMemFree` does with the space of a large chunk. -/
theorem cgMemFree_large {c : Chunk} (hok : ChunkOk t s c) (hmax : maxAlloc < c.len) :
    cgMemFree t c.p s = { s with
      length := Function.update s.length (c.p - t.tagSize) c.len
      blks := s.blks.map (extendBlk (s.block c.start) c.ext) } := by
  obtain ⟨hp, hext, -⟩ := hok.large hmax
  have hlen := hok.chunkLength
  unfold chunkLength at hlen
  have hstart : c.p - t.hdrSize = c.start := by omega
  simp only [cgMemFree, hlen, hmax, if_true, hstart, hext]

theorem cgMemFree_small {c : Chunk} (hok : ChunkOk t s c) (hmax : c.len ≤ maxAlloc) :
    cgMemFree t c.p s = { s with
      length := Function.update s.length (c.p - t.tagSize) c.len
      freeList := Function.update s.freeList (sizeToClass c.len)
        ((c.p - t.tagSize) :: s.freeList (sizeToClass c.len)) } := by
  have hlen := hok.chunkLength
  unfold chunkLength at hlen
  simp only [cgMemFree, hlen, Nat.not_lt.2 hmax, if_false]

theorem Inv.cgMemFree {l₁ l₂ : List Chunk} {c : Chunk} (h : Inv t s (l₁ ++ c :: l₂) fr) :
    ∃ fr', Inv t (cgMemFree t c.p s) (l₁ ++ l₂) fr' ∧ (∀ a ∈ fr, a ∈ fr') ∧
      (c.len ≤ maxAlloc → ∃ a ∈ fr', a.1 + t.tagSize = c.p) := by
  have hok := h.live c (by simp)
  rcases Nat.lt_or_ge maxAlloc c.len with hmax | hmax
  · obtain ⟨m₁, b, m₂, hb, haddr, hadj, hsys, hmap⟩ := h.block_of_large (hok.large hmax)
    rw [cgMemFree_large hok hmax, ← haddr, hmap]
    exact ⟨fr, h.freeLarge hb hadj hsys, fun a ha => ha, fun hle => absurd hmax (Nat.not_lt.2 hle)⟩
  · have hsmall := hok.small hmax
    rw [cgMemFree_small hok hmax]
    refine ⟨_, h.freeSmall hsmall, fun a ha => List.mem_cons_of_mem _ ha, fun _ => ⟨_, List.mem_cons_self, ?_⟩⟩
    have hp := hsmall.1
    simp only
    omega

end steps

/-! ### Runs -/

/-- A run whose state has a layout. -/
structure RunOk (t : Target) (r : Run) (lv : List Chunk) (fr : List (ℕ × ℕ)) : Prop where
  inv : Inv t r.state lv fr
  live : r.live = lv.map Chunk.live
  freed : ∀ p ∈ r.freed, ∃ a ∈ fr, a.1 + t.tagSize = p

section runs

variable {t : Target} {r : Run} {lv : List Chunk} {fr : List (ℕ × ℕ)}

theorem RunOk.alloc (h : RunOk t r lv fr) {malloc : ℕ → Option ℕ} (hm : MallocFor t r.state malloc) {amount : ℕ}
    (hwrap : NoWrap t amount) : ∃ lv' fr', RunOk t (r.alloc t malloc amount) lv' fr' := by
  unfold Run.alloc
  split
  next s' hp =>
    obtain rfl := cgMemAlloc_none hp
    exact ⟨lv, fr, h.inv, h.live, h.freed⟩
  next p s' hp =>
    obtain ⟨c, fr', hc, hinv, hfr⟩ := h.inv.cgMemAlloc hm hwrap hp
    refine ⟨c :: lv, fr', hinv, by rw [List.map_cons, hc, h.live], fun q hq => ?_⟩
    obtain ⟨hq, hne⟩ := List.mem_filter.1 hq
    obtain ⟨a, ha, rfl⟩ := h.freed q hq
    exact ⟨a, hfr a ha (by simpa using hne), rfl⟩

/-- Chunks in use have different addresses. -/
theorem Inv.p_ne {s : State} {l₁ l₂ : List Chunk} {c : Chunk} (h : Inv t s (l₁ ++ c :: l₂) fr) :
    ∀ c' ∈ l₁ ++ l₂, c'.p ≠ c.p := by
  intro c' hc'
  have hnew := (List.pairwise_cons.1 (pairwise_perm spans_chunk h.apart)).1
  have hok := h.live c (by simp)
  have hok' := h.live c' (by simp only [List.mem_append, List.mem_cons] at hc' ⊢; tauto)
  exact ((hnew c'.span (mem_spans_live hc')).ne hok.within.2.2.2 hok'.within.2.2.2).symm

theorem RunOk.free (h : RunOk t r lv fr) {p req : ℕ} (hp : (p, req) ∈ r.live) :
    ∃ lv' fr', RunOk t (r.free t p) lv' fr' := by
  rw [h.live] at hp
  obtain ⟨c, hc, hcp⟩ := List.mem_map.1 hp
  obtain ⟨rfl, rfl⟩ := Prod.mk.inj hcp
  obtain ⟨l₁, l₂, rfl⟩ := List.append_of_mem hc
  have hlen := (h.inv.live c hc).chunkLength
  obtain ⟨fr', hinv, hfr, hfreed⟩ := h.inv.cgMemFree
  refine ⟨l₁ ++ l₂, fr', hinv, ?_, fun q hq => ?_⟩
  · have hne := h.inv.p_ne
    have hkeep : ∀ l : List Chunk, (∀ c' ∈ l, c' ∈ l₁ ++ l₂) →
        (l.map Chunk.live).filter (·.1 ≠ c.p) = l.map Chunk.live := by
      intro l hl
      refine List.filter_eq_self.2 fun q hq => ?_
      obtain ⟨c', hc', rfl⟩ := List.mem_map.1 hq
      exact decide_eq_true (hne c' (hl c' hc'))
    simp only [Run.free]
    rw [h.live, List.map_append, List.map_cons, List.filter_append, List.filter_cons_of_neg (by simp [Chunk.live]),
      hkeep l₁ fun c' hc' => by simp [hc'], hkeep l₂ fun c' hc' => by simp [hc'], List.map_append]
  · simp only [Run.free, hlen] at hq
    split_ifs at hq with hmax
    · rcases List.mem_cons.1 hq with rfl | hq
      · exact hfreed hmax
      · obtain ⟨a, ha, hap⟩ := h.freed q hq
        exact ⟨a, hfr a ha, hap⟩
    · obtain ⟨a, ha, hap⟩ := h.freed q hq
      exact ⟨a, hfr a ha, hap⟩

theorem reaches_ok (h : Reaches t (NoWrap t) r) : ∃ lv fr, RunOk t r lv fr := by
  induction h with
  | init =>
    exact ⟨[], [], ⟨.nil, .nil, by simp [memInit], by simp, by simp, fun _ => rfl⟩, rfl, by simp⟩
  | alloc _ hmalloc hamount ih =>
    obtain ⟨lv, fr, hok⟩ := ih
    exact hok.alloc hmalloc hamount
  | free _ hp ih =>
    obtain ⟨lv, fr, hok⟩ := ih
    exact hok.free hp

theorem RunOk.mem_freeList (h : RunOk t r lv fr) {k a : ℕ} : a ∈ r.state.freeList k ↔ (a, 2 ^ (4 + k)) ∈ fr := by
  simp [h.inv.lists]

theorem RunOk.freeOk (h : RunOk t r lv fr) {k a : ℕ} (ha : a ∈ r.state.freeList k) :
    r.state.length a = 2 ^ (4 + k) ∧ k ≤ 10 := by
  have hfree := h.inv.free _ (h.mem_freeList.1 ha)
  obtain ⟨j, hj, hpow⟩ := hfree.pow
  have hkj := Nat.pow_right_injective le_rfl hpow
  exact ⟨hfree.tag, by omega⟩

theorem RunOk.givenBack (h : RunOk t r lv fr) {c : Chunk} (hc : c ∈ lv) (hmax : maxAlloc < c.len) :
    GivenBack t r.state c.p := by
  have hok := h.inv.live c hc
  have hlarge := hok.large hmax
  obtain ⟨l₁, b, l₂, hb, haddr, hadj, ⟨q, hq, hqa, hqe⟩, hmap⟩ := h.inv.block_of_large hlarge
  have hroom := (h.inv.blk b (by simp [hb])).room
  have hp := hlarge.1
  have hext := hlarge.2.1
  refine ⟨l₁, b, l₂, hb, ?_, ⟨q, hq, hqa, ?_⟩, { b with free := b.free + c.ext, size := b.size + c.ext }, ?_, ?_⟩
  · rw [hp, ← hadj]
    rfl
  · rw [hok.chunkLength]
    omega
  · rw [cgMemFree_large hok hmax, ← haddr, hmap]
  · rw [hok.chunkLength]
    simp only [unused, Prod.mk.injEq]
    omega

/-- What is before a chunk in its span is in no chunk in use. -/
theorem RunOk.apart_before (h : RunOk t r lv fr) {c c' : Chunk} (hc : c ∈ lv) (hc' : c' ∈ lv) {n : ℕ}
    (hn : c.start + n ≤ c.p) : Apart (c.p - n, n) c'.live := by
  have hbounds := (h.inv.live c hc).bounds
  by_cases heq : c = c'
  · subst heq
    simp only [Apart, Within, Chunk.live]
    omega
  · have hlive := (List.pairwise_append.1 (List.pairwise_append.1 h.inv.apart).2.1).1
    have hsymm : Std.Symm fun a b : Chunk => Apart a.span b.span := ⟨fun _ _ h => h.symm⟩
    have happ := (List.pairwise_map.1 hlive).forall hc hc' heq
    refine ((happ.mono fun x hx => ?_).symm.mono (h.inv.live c' hc').within.1).symm
    simp only [Within, Chunk.span] at hx ⊢
    omega

theorem RunOk.good (h : RunOk t r lv fr) : Good t r := by
  obtain ⟨hunused, hchunks, hcross⟩ := List.pairwise_append.1 h.inv.apart
  obtain ⟨hlive, hfree, hcross'⟩ := List.pairwise_append.1 hchunks
  have hmem : ∀ p ∈ r.live, ∃ c ∈ lv, c.live = p := fun p hp => List.mem_map.1 (h.live ▸ hp)
  have hin : ∀ c ∈ lv, ∀ x, Within x c.live → Within x c.span := fun c hc => (h.inv.live c hc).within.1
  constructor
  case live_apart =>
    rw [h.live, List.pairwise_map]
    refine (List.pairwise_map.1 hlive).imp_of_mem fun {c c'} hc hc' happ => ?_
    exact ((happ.mono (hin c hc)).symm.mono (hin c' hc')).symm
  case live_inSystem =>
    intro p hp
    obtain ⟨c, hc, rfl⟩ := hmem p hp
    have hbounds := (h.inv.live c hc).bounds
    obtain ⟨q, hq, hqc⟩ := (h.inv.live c hc).inSystem
    refine ⟨q, hq, ?_⟩
    simp only [Chunk.live, Chunk.span] at hqc ⊢
    omega
  case live_aligned =>
    intro p hp
    obtain ⟨c, hc, rfl⟩ := hmem p hp
    exact (h.inv.live c hc).aligned
  case live_large_enough =>
    intro p hp
    obtain ⟨c, hc, rfl⟩ := hmem p hp
    exact (h.inv.live c hc).chunkLength ▸ (h.inv.live c hc).enough
  case free_class =>
    intro k a ha
    obtain ⟨hlen, hk⟩ := h.freeOk ha
    rw [hlen, sizeToClass_pow hk]
    have heven := even_pow k
    exact ⟨by unfold unallocated; omega, rfl⟩
  case free_once =>
    intro k
    rw [h.inv.lists, List.Nodup, List.pairwise_map]
    refine List.Pairwise.filter _ (hfree.imp_of_mem fun {a a'} ha ha' happ => ?_)
    exact happ.ne (h.inv.free a ha).within (h.inv.free a' ha').within
  case free_listed =>
    intro p hp
    obtain ⟨a, ha, rfl⟩ := h.freed p hp
    obtain ⟨k, hk, hpow⟩ := (h.inv.free a ha).pow
    have hak : a.1 ∈ r.state.freeList k := h.mem_freeList.2 (hpow ▸ ha)
    simp only [Nat.add_sub_cancel]
    refine ⟨k, hak, fun j hj => ?_⟩
    have hlen := (h.freeOk hj).1.symm.trans (h.freeOk hak).1
    have hjk := Nat.pow_right_injective le_rfl hlen
    omega
  case free_apart =>
    intro k a ha p hp
    obtain ⟨c, hc, rfl⟩ := hmem p hp
    rw [(h.freeOk ha).1]
    exact ((hcross' _ (List.mem_map_of_mem hc) _ (h.mem_freeList.1 ha)).mono (hin c hc)).symm
  case unused_inSystem =>
    exact fun b hb => (h.inv.blk b hb).unused_inSystem
  case unused_apart =>
    intro b hb
    have hb' : unused b ∈ r.state.blks.flatMap (blkSpans t) := List.mem_flatMap.2 ⟨b, hb, by simp [blkSpans]⟩
    refine ⟨fun p hp => ?_, fun k a ha => ?_⟩
    · obtain ⟨c, hc, rfl⟩ := hmem p hp
      exact ((hcross _ hb' _ (List.mem_append_left _ (List.mem_map_of_mem hc))).symm.mono (hin c hc)).symm
    · rw [(h.freeOk ha).1]
      exact hcross _ hb' _ (List.mem_append_right _ (h.mem_freeList.1 ha))
  case header_apart =>
    intro b hb p hp
    obtain ⟨c, hc, rfl⟩ := hmem p hp
    have hb' : (b.addr, t.blkSize) ∈ r.state.blks.flatMap (blkSpans t) :=
      List.mem_flatMap.2 ⟨b, hb, by simp [blkSpans]⟩
    exact ((hcross _ hb' _ (List.mem_append_left _ (List.mem_map_of_mem hc))).symm.mono (hin c hc)).symm
  case tag_apart =>
    intro p hp q hq
    obtain ⟨c, hc, rfl⟩ := hmem p hp
    obtain ⟨c', hc', rfl⟩ := hmem q hq
    have hok := h.inv.live c hc
    refine ⟨h.apart_before hc hc' hok.tag_before, fun hmax => h.apart_before hc hc' ?_⟩
    obtain ⟨hstart, -⟩ := hok.large (hok.chunkLength ▸ hmax)
    exact hstart.ge
  case large_back =>
    intro p hp hmax
    obtain ⟨c, hc, rfl⟩ := hmem p hp
    exact h.givenBack hc ((h.inv.live c hc).chunkLength ▸ hmax)
  case alloc_fails =>
    exact fun malloc amount s hp => cgMemAlloc_none hp

/-- Every run whose requests do not wrap around is right. -/
theorem reaches_good (h : Reaches t (NoWrap t) r) : Good t r := by
  obtain ⟨lv, fr, hok⟩ := reaches_ok h
  exact hok.good

end runs

/-- A system that gives its blocks at one address. -/
def mallocAt (ptr : ℕ) (_ : ℕ) : Option ℕ := some ptr

theorem mallocAt_init (t : Target) : MallocFor t memInit (mallocAt 65536) := by
  rintro size ptr ⟨⟩
  exact ⟨t.word_dvd.trans (by norm_num), by norm_num, by simp [memInit]⟩

/-- A small chunk comes out of the block of a large one, which is freed. -/
theorem reaches_good_two :
    Good ⟨false⟩ ((((⟨memInit, [], []⟩ : Run).alloc ⟨false⟩ (mallocAt 65536) 20000).alloc ⟨false⟩ (fun _ => none)
      12).free ⟨false⟩ 111064) :=
  reaches_good (.free (.alloc (.alloc .init (mallocAt_init _) (by decide)) (by rintro _ _ ⟨⟩) (by decide))
    (show (111064, 20000) ∈ _ by decide))

/-- A request of all addresses gets a chunk of sixteen bytes. -/
theorem not_reaches_good : ¬ ∀ (t : Target) (r : Run), Reaches t (fun _ => True) r → Good t r := by
  intro h
  have hgood := h ⟨false⟩ ((⟨memInit, [], []⟩ : Run).alloc ⟨false⟩ (mallocAt 65536) (2 ^ 32 - 1))
    (.alloc .init (mallocAt_init _) trivial)
  have hlive := hgood.live_large_enough (65552, 2 ^ 32 - 1) (by decide)
  exact absurd hlive (by decide)

end OpenWatcom.MemMgr
