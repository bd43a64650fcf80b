import OpenWatcom.Clib.FreeSearch

/-! # Runs of a miniheap

`__MemFree` joins a block with the free blocks at its sides, so that in every run with `__MemAllocator` no two free
blocks are side by side, and a call leaves the other blocks in use alone. -/

namespace OpenWatcom.Clib

open FreeSearch (tagAt tagAt_append tagAt_head ringFrom_append)

/-! ### `__MemFree` -/

/-- The size in the head of an entry of the ring; that of `freehead` is 0. -/
def lenOf (h : MiniHeap) (p : ℕ) : ℕ := ((tagAt h.first h.blocks p).join.map Blk.len).getD 0

/-- The block that becomes free, the rover and the number of free blocks. -/
structure Freed where
  pfree : ℕ
  len : ℕ
  rover : ℕ
  numfree : ℕ

/-- With the block behind it if this is free. -/
def joinNext (h : MiniHeap) (pfree len : ℕ) : Freed :=
  match tagAt h.first h.blocks (pfree + len) with
  | some (some ⟨nextLen, false⟩) =>
    ⟨pfree, len + nextLen, if pfree + len = h.rover then pfree else h.rover, h.numfree - 1⟩
  | _ => ⟨pfree, len, h.rover, h.numfree⟩

/-- With the entry in front of it if they are adjacent. -/
def joinPrev (h : MiniHeap) (f : Freed) : Freed :=
  let pprev := prevOf h f.pfree
  if pprev + lenOf h pprev = f.pfree then
    ⟨pprev, f.len + lenOf h pprev, if f.rover = f.pfree then pprev else f.rover, f.numfree⟩
  else { f with numfree := f.numfree + 1 }

/-- The blocks of so many bytes, and those behind them. -/
def cutAt : ℕ → List Blk → List Blk × List Blk
  | 0, l => ([], l)
  | _, [] => ([], [])
  | n + 1, b :: l => (cutAt (n + 1 - b.len) l).map (b :: ·) id

/-- `__MemFree`; the place in the ring is the one that its search finds. -/
def memFree (cstg : ℕ) (h : MiniHeap) : MiniHeap :=
  if cstg = 0 then h
  else
    match tagAt h.first h.blocks (cstg - tagSize) with
    | some (some ⟨len, true⟩) =>
      let f := joinPrev h (joinNext h (cstg - tagSize) len)
      { h with
        blocks := (cutAt (f.pfree - h.first) h.blocks).1 ++
          ⟨f.len, false⟩ :: (cutAt (f.pfree + f.len - h.first) h.blocks).2
        rover := f.rover
        numfree := f.numfree
        numalloc := h.numalloc - 1
        b4rover := if f.pfree < f.rover ∧ h.b4rover < f.len then f.len else h.b4rover
        largestBlk := max h.largestBlk f.len }
    | _ => h

/-! ### Places -/

section

variable {h : MiniHeap} {pre post : List Blk} {addr len size : ℕ}

theorem cutAt_eq (post : List Blk) (hpos : ∀ b ∈ pre, 0 < b.len) :
    cutAt (pre.map Blk.len).sum (pre ++ post) = (pre, post) := by
  induction pre with
  | nil => simp [cutAt]
  | cons b pre ih =>
      have hb := hpos b List.mem_cons_self
      obtain ⟨n, hn⟩ : ∃ n, b.len + (pre.map Blk.len).sum = n + 1 := ⟨_, (Nat.succ_pred (by omega)).symm⟩
      rw [List.map_cons, List.sum_cons, hn, List.cons_append, cutAt, ← hn, Nat.add_sub_cancel_left,
        ih fun c hc => hpos c (List.mem_cons_of_mem b hc)]
      rfl

/-- Where a free block stands among the blocks. -/
theorem ringFrom_split {blocks : List Blk} {b : FreeBlk} (hmem : b ∈ ringFrom addr blocks) :
    ∃ pre post, blocks = pre ++ ⟨b.len, false⟩ :: post ∧ b.addr = addr + (pre.map Blk.len).sum := by
  induction blocks generalizing addr with
  | nil => cases hmem
  | cons c rest ih =>
      have hlater : b ∈ ringFrom (addr + c.len) rest → ∃ pre post, c :: rest = pre ++ ⟨b.len, false⟩ :: post ∧
          b.addr = addr + (pre.map Blk.len).sum := by
        intro hb
        obtain ⟨pre, post, rfl, haddr⟩ := ih hb
        exact ⟨c :: pre, post, rfl, by simp [haddr, Nat.add_assoc]⟩
      unfold ringFrom at hmem
      split at hmem
      case isTrue => exact hlater hmem
      case isFalse huse =>
        rcases List.mem_cons.mp hmem with rfl | hmem
        · exact ⟨[], rest, by cases c; simpa using huse, rfl⟩
        · exact hlater hmem

/-- What is put in its place when it is used. -/
theorem useBlock_append (size len : ℕ) (post : List Blk) (hpos : ∀ b ∈ pre, 0 < b.len) (addr : ℕ) :
    useBlock (addr + (pre.map Blk.len).sum) size addr (pre ++ ⟨len, false⟩ :: post) = pre ++
      if frlSize ≤ len - size then ⟨size, true⟩ :: ⟨len - size, false⟩ :: post else ⟨len, true⟩ :: post := by
  induction pre generalizing addr with
  | nil => simp [useBlock]
  | cons b pre ih =>
      have hb := hpos b List.mem_cons_self
      rw [List.map_cons, List.sum_cons, List.cons_append, useBlock, if_neg (by omega), ← Nat.add_assoc,
        ih fun c hc => hpos c (List.mem_cons_of_mem b hc)]
      rfl

theorem tagAt_below {blocks : List Blk} {p : ℕ} (h : p < addr) : tagAt addr blocks p = none := by
  induction blocks generalizing addr with
  | nil => exact if_neg h.ne'
  | cons b blocks ih => rw [tagAt, if_neg h.ne', ih (by omega)]

theorem MiniHeap.Inv.len_pos (hinv : h.Inv) {b : Blk} (hb : b ∈ h.blocks) : 0 < b.len :=
  lt_of_lt_of_le (by decide) (hinv.pos b hb)

theorem tagAt_eq (hinv : h.Inv) (hblocks : h.blocks = pre ++ post) :
    tagAt h.first h.blocks (h.first + (pre.map Blk.len).sum) = some post.head? := by
  rw [hblocks, tagAt_append fun b hb => hinv.len_pos (by rw [hblocks]; exact List.mem_append_left post hb), tagAt_head]

theorem lenOf_mem (hinv : h.Inv) {b : FreeBlk} (hb : b ∈ h.ring) : lenOf h b.addr = b.len := by
  obtain ⟨pre, post, hblocks, haddr⟩ := ringFrom_split hb
  rw [lenOf, haddr, tagAt_eq hinv hblocks]
  rfl

/-- Free blocks at a side, behind which there is one in use or none. -/
def FreeSide (free : List Blk) (behind : Option Blk) : Prop :=
  free = [] ∧ (∀ b ∈ behind, b.inUse = true) ∨ ∃ m, free = [⟨m, false⟩]

/-- The entry in front of a block that is in use, and whether it is adjacent. -/
theorem prevOf_eq (hinv : h.Inv) (hblocks : h.blocks = pre ++ ⟨len, true⟩ :: post) {p : ℕ}
    (hp : p = h.first + (pre.map Blk.len).sum) : ∃ pre' front, pre = pre' ++ front ∧
      (front = [] ∧ (∀ b ∈ pre'.getLast?, b.inUse = true) ∧ prevOf h p + lenOf h (prevOf h p) ≠ p ∨
        ∃ m, front = [⟨m, false⟩] ∧ prevOf h p = h.first + (pre'.map Blk.len).sum ∧ lenOf h (prevOf h p) = m) := by
  have hring : h.ring = ringFrom h.first pre ++ ringFrom (p + len) post := by
    simp [MiniHeap.ring, hblocks, ringFrom_append, ringFrom, hp]
  have hfilter : h.ring.filter (·.addr < p) = ringFrom h.first pre := by
    rw [hring, List.filter_append, List.filter_eq_self.mpr fun b hb => ?_, List.filter_eq_nil_iff.mpr fun b hb => ?_,
      List.append_nil]
    · have := (ringFrom_addr_le hb).1
      simp only [decide_eq_true_eq]
      omega
    · have hle := (ringFrom_addr_le hb).2
      have hb := hinv.len_pos (by rw [hblocks]; exact List.mem_append_left _ (ringFrom_len hb))
      dsimp only at hb
      simp only [decide_eq_true_eq]
      omega
  unfold prevOf
  rw [hfilter]
  have hapart : ∀ l ⊆ h.ring, (∀ b ∈ l, b.addr + b.len < p) → ∀ q, (l.getLast?.map FreeBlk.addr).getD h.freehead = q →
      q + lenOf h q ≠ p := by
    rintro l hsub hlt _ rfl
    cases hlast : l.getLast? with
    | none =>
        have hfree : h.freehead < h.first := Nat.add_lt_add_left (by decide) h.addr
        rw [Option.map_none, Option.getD_none, lenOf, tagAt_below hfree, hp]
        exact (Nat.lt_add_right _ hfree).ne
    | some b =>
        have hb := List.mem_of_getLast? hlast
        simpa [lenOf_mem hinv (hsub hb)] using (hlt b hb).ne
  rcases pre.eq_nil_or_concat' with rfl | ⟨pre', ⟨m, _ | _⟩, rfl⟩
  · exact ⟨[], [], rfl, .inl ⟨rfl, by simp, hapart [] (by simp) (by simp) _ rfl⟩⟩
  · have hlast : ringFrom h.first (pre' ++ [⟨m, false⟩]) =
        ringFrom h.first pre' ++ [⟨h.first + (pre'.map Blk.len).sum, m⟩] := ringFrom_append ..
    rw [hlast] at hring ⊢
    rw [List.getLast?_concat]
    exact ⟨pre', _, rfl, .inr ⟨m, rfl, rfl, lenOf_mem (b := ⟨_, m⟩) hinv (by simp [hring])⟩⟩
  · refine ⟨_, [], (List.append_nil _).symm, .inl ⟨rfl, by simp, hapart _ (by simp [hring]) (fun b hb => ?_) _ rfl⟩⟩
    have hm := hinv.len_pos (b := ⟨m, true⟩) (by simp [hblocks])
    simp only [ringFrom_append, ringFrom, if_true, List.append_nil, List.map_append, List.sum_append, List.map_cons,
      List.map_nil, List.sum_cons, List.sum_nil] at hb hp
    have := (ringFrom_addr_le hb).2
    dsimp only at hm
    omega

/-- The block and the free blocks at its sides become one, and the hints are set for it. -/
theorem memFree_eq (hinv : h.Inv) (hblocks : h.blocks = pre ++ ⟨len, true⟩ :: post) {p : ℕ}
    (hp : p = h.first + (pre.map Blk.len).sum) : ∃ pre' front back post', pre = pre' ++ front ∧ post = back ++ post' ∧
      FreeSide front pre'.getLast? ∧ FreeSide back post'.head? ∧
      ∀ h', memFree (p + tagSize) h = h' → ∀ start n, start = h.first + (pre'.map Blk.len).sum →
        n = ((front ++ ⟨len, true⟩ :: back).map Blk.len).sum →
        h'.addr = h.addr ∧ h'.blocks = pre' ++ ⟨n, false⟩ :: post' ∧ h'.largestBlk = max h.largestBlk n ∧
        h'.numalloc = h.numalloc - 1 ∧ h'.numfree = h.numfree - back.length + (1 - front.length) ∧
        (h'.rover = start ∨ h'.rover = h.rover ∧ (back ≠ [] → h.rover ≠ p + len)) ∧ h'.rover ≤ h.rover ∧
        h.b4rover ≤ h'.b4rover ∧ (start < h'.rover → n ≤ h'.b4rover) := by
  have hhere := tagAt_eq hinv hblocks
  have hnext := tagAt_eq hinv (show h.blocks = (pre ++ [⟨len, true⟩]) ++ post by simp [hblocks])
  rw [List.map_append, List.sum_append, ← Nat.add_assoc] at hnext
  rw [← hp] at hhere hnext
  -- the first cut is in front of the joined block, the second one behind it
  have hcut := fun l rest (hl : h.blocks = l ++ rest) => by
    have hcut := cutAt_eq rest fun b hb => hinv.len_pos (by rw [hl]; exact List.mem_append_left rest hb)
    rwa [← hl] at hcut
  obtain ⟨pre', front, rfl, hfront⟩ := prevOf_eq hinv hblocks hp
  have hback : ∃ back post', post = back ++ post' ∧ FreeSide back post'.head? := by
    rcases post with _ | ⟨⟨m, _ | _⟩, post⟩
    · exact ⟨[], [], rfl, .inl ⟨rfl, by simp⟩⟩
    · exact ⟨[_], post, rfl, .inr ⟨m, rfl⟩⟩
    · exact ⟨[], _, rfl, .inl ⟨rfl, by simp⟩⟩
  obtain ⟨back, post', rfl, hback⟩ := hback
  have hcut₁ := hcut pre' (front ++ ⟨len, true⟩ :: back ++ post') (by simp [hblocks])
  have hcut₂ := hcut (pre' ++ (front ++ ⟨len, true⟩ :: back)) post' (by simp [hblocks])
  refine ⟨pre', front, back, post', rfl, rfl, hfront.imp (fun h => ⟨h.1, h.2.1⟩) fun ⟨m, h, _⟩ => ⟨m, h⟩, hback, ?_⟩
  rintro h' rfl start n hstart hn
  have hjoin : joinNext h p len = ⟨p, len + (back.map Blk.len).sum,
      if back ≠ [] ∧ p + len = h.rover then p else h.rover, h.numfree - back.length⟩ := by
    unfold joinNext
    rcases hback with ⟨rfl, hhead⟩ | ⟨m, rfl⟩
    · rcases post' with _ | ⟨⟨m, _ | _⟩, post⟩ <;> simp_all
    · simp_all
  have hfreed : joinPrev h (joinNext h p len) = ⟨start, n,
      if front ≠ [] ∧ (joinNext h p len).rover = p then start else (joinNext h p len).rover,
        h.numfree - back.length + (1 - front.length)⟩ := by
    unfold joinPrev
    rw [hjoin]
    rcases hfront with ⟨rfl, -, hne⟩ | ⟨m, rfl, hprev, hlen⟩
    · simp_all
    · dsimp only
      rw [if_pos (by rw [hlen, hprev, hp]; simp [Nat.add_assoc]), hlen, hprev, ← hstart, hn]
      simp [Nat.add_comm, Nat.add_left_comm]
  have hle : start ≤ p := by
    simp [hp, hstart]
  unfold memFree
  rw [if_neg (by unfold tagSize; omega), Nat.add_sub_cancel, hhere]
  dsimp only [List.head?_cons]
  rw [hfreed, show start - h.first = (pre'.map Blk.len).sum by omega, hcut₁,
    show start + n - h.first = ((pre' ++ (front ++ ⟨len, true⟩ :: back)).map Blk.len).sum by
      rw [List.map_append, List.sum_append]; omega, hcut₂, hjoin]
  refine ⟨rfl, rfl, rfl, rfl, rfl, ?_, ?_, ?_, ?_⟩ <;> grind

end

/-! ### Runs -/

/-- A block with the other mark. -/
def Blk.flip (b : Blk) : Blk := ⟨b.len, !b.inUse⟩

/-- The blocks in use. -/
def MiniHeap.storage (h : MiniHeap) : List FreeBlk := ringFrom h.first (h.blocks.map Blk.flip)

/-- One of two blocks is in use. -/
def Parted (b c : Blk) : Prop := b.inUse = true ∨ c.inUse = true

/-- A miniheap that counts its blocks, without free blocks side by side. -/
structure MiniHeap.Sound (h : MiniHeap) : Prop where
  inv : h.Inv
  apart : h.blocks.IsChain Parted
  numalloc : h.numalloc = h.storage.length
  numfree : h.numfree = h.ring.length

/-- A program asks for storage, or frees a block that is in use. -/
inductive Calls (h : MiniHeap) : MiniHeap → Prop
  | malloc (reqSize : ℕ) : Calls h (memAllocator reqSize h).2
  | free {b : FreeBlk} : b ∈ h.storage → Calls h (memFree (b.addr + tagSize) h)

section

variable {h h' : MiniHeap}

@[simp] theorem len_flip : Blk.len ∘ Blk.flip = Blk.len := rfl

/-- A free block is used, all of it or its front, or nothing is changed but a hint. -/
theorem memAllocator_cases (hinv : h.Inv) (reqSize : ℕ) :
    (∃ largest, memAllocator reqSize h = (none, { h with largestBlk := largest })) ∨
      ∃ pre post len size tail h', h.blocks = pre ++ ⟨len, false⟩ :: post ∧
        memAllocator reqSize h = (some (h.first + (pre.map Blk.len).sum + tagSize), h') ∧ h'.addr = h.addr ∧
          h'.blocks = pre ++ ⟨size, true⟩ :: tail ++ post ∧ size + (tail.map Blk.len).sum = len ∧
            (tail = [] ∨ ∃ n, tail = [⟨n, false⟩]) ∧ reqSize + tagSize ≤ size ∧ h'.numalloc = h.numalloc + 1 ∧
              h'.numfree = h.numfree + tail.length - 1 := by
  unfold memAllocator
  split_ifs with hzero hround
  · exact .inl ⟨_, rfl⟩
  · exact .inl ⟨_, rfl⟩
  have hsize : reqSize + tagSize ≤ blockSize reqSize := by
    refine le_trans ?_ (le_max_left _ _)
    unfold roundUpSizeHeap tagSize at hround ⊢
    omega
  have hfrl : frlSize ≤ blockSize reqSize := le_max_right _ _
  generalize blockSize reqSize = size at *
  dsimp only
  split_ifs with hlarge
  · exact .inl ⟨_, rfl⟩
  split
  · exact .inl ⟨_, rfl⟩
  · rename_i pcur largest hsearch
    obtain ⟨hmem, hfound, -⟩ := searchStart_found hinv hsearch (lt_of_lt_of_le (by decide) hfrl)
    obtain ⟨pre, post, hblocks, haddr⟩ := ringFrom_split hmem
    have huse := useBlock_append size pcur.len post (fun b hb =>
      hinv.len_pos (by rw [hblocks]; exact List.mem_append_left _ hb)) h.first
    rw [← haddr, ← hblocks] at huse
    rw [haddr] at huse ⊢
    split_ifs at huse ⊢ with hleft
    · refine .inr ⟨pre, post, _, size, [⟨pcur.len - size, false⟩], _, hblocks, rfl, rfl, by simpa using huse, ?_,
        .inr ⟨_, rfl⟩, hsize, rfl, rfl⟩
      simp only [List.map_cons, List.map_nil, List.sum_cons, List.sum_nil]
      omega
    · exact .inr ⟨pre, post, _, _, [], _, hblocks, rfl, rfl, by simpa using huse, rfl, .inl rfl, hsize.trans hfound,
        rfl, rfl⟩

/-- It gives a block that nobody has, of the size that was asked for. -/
theorem memAllocator_sound (hs : h.Sound) {reqSize : ℕ} {result : Option ℕ}
    (heq : memAllocator reqSize h = (result, h')) :
    h'.Sound ∧ h'.addr = h.addr ∧ h'.len = h.len ∧ (result = none → h'.storage = h.storage) ∧
      ∀ p, result = some p → ∃ n, reqSize + tagSize ≤ n ∧ h'.storage.Perm (⟨p - tagSize, n⟩ :: h.storage) := by
  have hinv := memAllocator_inv hs.inv reqSize
  rw [heq] at hinv
  rcases memAllocator_cases hs.inv reqSize with ⟨largest, hcase⟩ |
      ⟨pre, post, len, size, tail, h₁, hblocks, hcase, haddr, hblocks', rfl, htail, hsize, halloc, hfree⟩
  · obtain ⟨rfl, rfl⟩ := Prod.mk.inj (heq.symm.trans hcase)
    exact ⟨⟨hinv, hs.apart, hs.numalloc, hs.numfree⟩, rfl, rfl, fun _ => rfl, by simp⟩
  · obtain ⟨rfl, rfl⟩ := Prod.mk.inj (heq.symm.trans hcase)
    have hperm : h'.storage.Perm (⟨h.first + (pre.map Blk.len).sum, size⟩ :: h.storage) := by
      unfold MiniHeap.storage MiniHeap.first
      rw [hblocks, hblocks', haddr]
      rcases htail with rfl | ⟨n, rfl⟩ <;> simp [ringFrom_append, ringFrom, Blk.flip, Nat.add_assoc, List.perm_middle]
    have hring : h'.ring.length = h.ring.length + tail.length - 1 := by
      unfold MiniHeap.ring MiniHeap.first
      rw [hblocks, hblocks', haddr]
      rcases htail with rfl | ⟨n, rfl⟩ <;> simp [ringFrom_append, ringFrom, Nat.add_assoc]
    refine ⟨⟨hinv, ?_, ?_, ?_⟩, haddr, ?_, by simp, ?_⟩
    · have hchain := hs.apart
      rw [hblocks] at hchain
      rw [hblocks']
      rcases htail with rfl | ⟨n, rfl⟩ <;> grind [List.isChain_append, List.isChain_cons, Parted]
    · rw [halloc, hs.numalloc, hperm.length_eq, List.length_cons]
    · rw [hfree, hs.numfree, hring]
    · simp [MiniHeap.len, hblocks, hblocks', Nat.add_assoc]
    · rintro p ⟨⟩
      exact ⟨size, hsize, hperm⟩

/-- Free blocks become one, so that none are side by side. -/
theorem isChain_free {pre front back post : List Blk} {len n : ℕ}
    (hfront : FreeSide front pre.getLast?) (hback : FreeSide back post.head?)
    (h : (pre ++ front ++ ⟨len, true⟩ :: (back ++ post)).IsChain Parted) :
    (pre ++ ⟨n, false⟩ :: post).IsChain Parted := by
  rcases hfront with ⟨rfl, hlast⟩ | ⟨m, rfl⟩ <;> rcases hback with ⟨rfl, hhead⟩ | ⟨m', rfl⟩ <;>
    simp only [List.append_assoc, List.append_nil, List.isChain_append, List.isChain_cons, List.cons_append,
      List.nil_append, Parted] at h ⊢ <;> simp_all

/-- The storage that is freed is one of the blocks in use. -/
theorem storage_split {b : FreeBlk} (hb : b ∈ h.storage) : ∃ pre post, h.blocks = pre ++ ⟨b.len, true⟩ :: post ∧
    b.addr = h.first + (pre.map Blk.len).sum := by
  obtain ⟨pre, post, hblocks, haddr⟩ := ringFrom_split hb
  obtain ⟨pre, rest, hsplit, rfl, hrest⟩ := List.map_eq_append_iff.mp hblocks
  obtain ⟨c, post, rfl, hc, rfl⟩ := List.map_eq_cons_iff.mp hrest
  refine ⟨pre, post, ?_, by simpa using haddr⟩
  have hc : c = ⟨b.len, true⟩ := by
    cases c
    simpa [Blk.flip] using hc
  rw [hsplit, hc]

/-- It takes nothing but the block, and joins all that is free around it. -/
theorem memFree_sound (hs : h.Sound) {b : FreeBlk} (hb : b ∈ h.storage) (heq : memFree (b.addr + tagSize) h = h') :
    h'.Sound ∧ h'.addr = h.addr ∧ h'.len = h.len ∧ h.storage.Perm (b :: h'.storage) := by
  obtain ⟨pre, post, hblocks, hp⟩ := storage_split hb
  obtain ⟨pre', front, back, post', rfl, rfl, hfront, hback, hspec⟩ := memFree_eq hs.inv hblocks hp
  obtain ⟨start, hstart⟩ : ∃ start, start = h.first + (pre'.map Blk.len).sum := ⟨_, rfl⟩
  obtain ⟨n, hn⟩ : ∃ n, n = ((front ++ ⟨b.len, true⟩ :: back).map Blk.len).sum := ⟨_, rfl⟩
  obtain ⟨haddr, hblocks', hlargest, halloc, hfree, hrover, hle, hb4, hbelow⟩ := hspec h' heq start n hstart hn
  have hfirst : h'.first = h.first := congrArg (· + heapblkSize) haddr
  have hring : h.ring = ringFrom h.first pre' ++ ringFrom start (front ++ ⟨b.len, true⟩ :: back) ++
      ringFrom (start + n) post' := by
    simp [MiniHeap.ring, hblocks, ringFrom_append, ringFrom, hstart, hn, Nat.add_assoc]
  have hring' : h'.ring = ringFrom h.first pre' ++ ⟨start, n⟩ :: ringFrom (start + n) post' := by
    simp [MiniHeap.ring, hblocks', hfirst, ringFrom_append, ringFrom, hstart]
  have hlen : h'.len = h.len := by
    simp [MiniHeap.len, hblocks, hblocks', hn, Nat.add_assoc]
  have hperm : h.storage.Perm (b :: h'.storage) := by
    have hb : b = ⟨h.first + ((pre' ++ front).map Blk.len).sum, b.len⟩ := by rw [← hp]
    unfold MiniHeap.storage
    rw [hblocks, hblocks', hfirst, hb]
    rcases hfront with ⟨rfl, -⟩ | ⟨m, rfl⟩ <;> rcases hback with ⟨rfl, -⟩ | ⟨m', rfl⟩ <;>
      simp [hn, ringFrom_append, ringFrom, Blk.flip, Nat.add_assoc, List.perm_middle]
  have hkept : ∀ c ∈ h'.ring, c = ⟨start, n⟩ ∨ c ∈ h.ring := by
    simp only [hring, hring', List.mem_append, List.mem_cons]
    tauto
  have hmid : ∀ c ∈ ringFrom start (front ++ ⟨b.len, true⟩ :: back),
      c.addr = start ∨ back ≠ [] ∧ c.addr = b.addr + b.len := by
    rw [hp, hstart]
    rcases hfront with ⟨rfl, -⟩ | ⟨m, rfl⟩ <;> rcases hback with ⟨rfl, -⟩ | ⟨m', rfl⟩ <;> simp [ringFrom, Nat.add_assoc]
  refine ⟨⟨⟨?_, ?_, ?_, ?_, ?_⟩, ?_, ?_, ?_⟩, haddr, hlen, hperm⟩
  · have hpos := hs.inv.pos
    simp only [hblocks, hblocks', List.mem_append, List.mem_cons] at hpos ⊢
    rintro c (hc | rfl | hc)
    · exact hpos c (.inl (.inl hc))
    · refine (hpos ⟨b.len, true⟩ (.inr (.inl rfl))).trans ?_
      simp [hn]
      omega
    · exact hpos c (.inr (.inr (.inr hc)))
  · rw [haddr, hlen]
    exact hs.inv.fits
  · have hnew : ⟨start, n⟩ ∈ h'.ring := by simp [hring']
    rcases hrover with hstart | ⟨hsame, hnext⟩
    · exact .inr ⟨_, hnew, hstart.symm⟩
    · rw [hsame]
      rcases hs.inv.rover with hhead | ⟨c, hc, hcr⟩
      · exact .inl (hhead.trans (congrArg (· + 16) haddr.symm))
      · simp only [hring, List.mem_append] at hc
        rcases hc with (hc | hc) | hc
        · exact .inr ⟨c, by simp [hring', hc], hcr⟩
        · rcases hmid c hc with hc | ⟨hne, hc⟩
          · exact .inr ⟨_, hnew, hc.symm.trans hcr⟩
          · exact absurd (hcr.symm.trans hc) (hnext hne)
        · exact .inr ⟨c, by simp [hring', hc], hcr⟩
  · intro c hc hlt
    rcases hkept c hc with rfl | hc
    · exact hbelow hlt
    · exact (hs.inv.before c hc (hlt.trans_le hle)).trans hb4
  · intro c hc
    rw [hlargest]
    rcases hkept c hc with rfl | hc
    · exact le_max_right _ _
    · exact (hs.inv.largest c hc).trans (le_max_left _ _)
  · have hchain := hs.apart
    rw [hblocks] at hchain
    rw [hblocks']
    exact isChain_free hfront hback hchain
  · rw [halloc, hs.numalloc, hperm.length_eq, List.length_cons, Nat.add_sub_cancel]
  · rw [hfree, hs.numfree, hring, hring']
    rcases hfront with ⟨rfl, -⟩ | ⟨m, rfl⟩ <;> rcases hback with ⟨rfl, -⟩ | ⟨m', rfl⟩ <;> simp [ringFrom] <;> omega

/-- Free blocks that are not side by side are at most one more than those in use. -/
theorem ringFrom_length_flip {l : List Blk} (hl : l.IsChain Parted) (addr : ℕ) :
    (ringFrom addr l).length ≤ (ringFrom addr (l.map Blk.flip)).length + 1 ∧
      ((∀ b ∈ l.head?, b.inUse = true) → (ringFrom addr l).length ≤ (ringFrom addr (l.map Blk.flip)).length) := by
  induction l generalizing addr with
  | nil => simp [ringFrom]
  | cons b l ih =>
      have ih := ih hl.tail (addr + b.len)
      have hhead := List.isChain_cons.mp hl
      cases hb : b.inUse with
      | false =>
          have := ih.2 fun c hc => by simpa [Parted, hb] using hhead.1 c hc
          simp [ringFrom, Blk.flip, hb]
          omega
      | true =>
          simp [ringFrom, Blk.flip, hb]
          omega

theorem Calls.sound (hcall : Calls h h') (hs : h.Sound) : h'.Sound ∧ h'.addr = h.addr ∧ h'.len = h.len := by
  cases hcall with
  | malloc reqSize =>
      obtain ⟨hs', haddr, hlen, -⟩ := @memAllocator_sound _ _ hs reqSize _ rfl
      exact ⟨hs', haddr, hlen⟩
  | free hb =>
      obtain ⟨hs', haddr, hlen, -⟩ := memFree_sound hs hb rfl
      exact ⟨hs', haddr, hlen⟩

/-- In every run the free blocks are at most one more than those in use, these lie apart in the miniheap, a call for
storage adds one of the size that was asked for, and freeing one takes it alone. -/
theorem heap_run (start : MiniHeap) (hstart : start.Sound) (hrun : Relation.ReflTransGen Calls start h) :
    h.Sound ∧ h.addr = start.addr ∧ h.len = start.len ∧ h.numfree ≤ h.numalloc + 1 ∧
      h.storage.Pairwise (fun b c => b.addr + b.len ≤ c.addr) ∧
      (∀ b ∈ h.storage, h.first ≤ b.addr ∧ b.addr + b.len ≤ h.addr + h.len) ∧
      (∀ reqSize result h', memAllocator reqSize h = (result, h') → (result = none → h'.storage = h.storage) ∧
        ∀ p, result = some p → ∃ n, reqSize + tagSize ≤ n ∧ h'.storage.Perm (⟨p - tagSize, n⟩ :: h.storage)) ∧
      ∀ b ∈ h.storage, h.storage.Perm (b :: (memFree (b.addr + tagSize) h).storage) := by
  obtain ⟨hs, haddr, hlen⟩ : h.Sound ∧ h.addr = start.addr ∧ h.len = start.len := by
    induction hrun with
    | refl => exact ⟨hstart, rfl, rfl⟩
    | tail _ hcall ih =>
        obtain ⟨hs', haddr', hlen'⟩ := hcall.sound ih.1
        exact ⟨hs', haddr'.trans ih.2.1, hlen'.trans ih.2.2⟩
  refine ⟨hs, haddr, hlen, ?_, ringFrom_sorted _, fun b hb => ?_, fun _ _ _ heq => (memAllocator_sound hs heq).2.2.2,
    fun b hb => (memFree_sound hs hb rfl).2.2.2⟩
  · rw [hs.numfree, hs.numalloc]
    exact (ringFrom_length_flip hs.apart h.first).1
  · simpa [MiniHeap.len, MiniHeap.first, Nat.add_assoc] using ringFrom_addr_le hb

/-- A miniheap with a free block of 40 bytes. -/
def fresh : MiniHeap := ⟨0, [⟨40, false⟩], 16, 0, 40, 0, 1⟩

theorem heap_run_fresh : fresh.Sound ∧
    (memFree 24 (memAllocator 9 fresh).2).numfree ≤ (memFree 24 (memAllocator 9 fresh).2).numalloc + 1 := by
  have hsound : fresh.Sound :=
    ⟨⟨by decide, by decide, .inl rfl, by decide, by decide⟩, .singleton _, rfl, rfl⟩
  have hrun := (Relation.ReflTransGen.single (Calls.malloc (h := fresh) 9)).tail
    (.free (b := ⟨22, 12⟩) (by decide))
  exact ⟨hsound, (heap_run fresh hsound hrun).2.2.2.1⟩

end

end OpenWatcom.Clib
