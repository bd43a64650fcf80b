import OpenWatcom.Lib.Chains
import OpenWatcom.Clib.NearHeap

/-! # The place of a freed block

`__MemFree` looks for the place of a block in the free ring: behind the block itself if a free one follows, at the rover
or at an end of the ring, over the blocks that follow, or along the ring. -/

namespace OpenWatcom.Clib.FreeSearch

open Chains

/-- The fields `next` and `prev` of `freehead` and of the free blocks. -/
structure Links where
  next : ℕ → ℕ
  prev : ℕ → ℕ

/-- The tag at an address: that of a block, or `END_TAG`. -/
def tagAt : ℕ → List Blk → ℕ → Option (Option Blk)
  | addr, [], p => if addr = p then some none else none
  | addr, b :: rest, p => if addr = p then some (some b) else tagAt (addr + b.len) rest p

/-- The scan of the blocks from `pnext` on, for so many rounds at most: a free one, or nothing if it is given up. -/
def scanBlocks (h : MiniHeap) : ℕ → ℕ → ℕ → Option (Option ℕ)
  | 0, _, _ => none
  | k + 1, average, pnext =>
    match tagAt h.first h.blocks pnext with
    | none => none
    | some none => some none
    | some (some b) =>
      if !b.inUse then some (some pnext)
      else
        let average := (average + 65535) % 65536
        if average = 0 then some none else scanBlocks h k average (pnext + b.len)

/-- The search of the free ring, which goes on by three links in a round. -/
def ringSearch (next : ℕ → ℕ) (pfree : ℕ) : ℕ → ℕ → Option ℕ
  | 0, _ => none
  | k + 1, pnext =>
    if pfree < pnext then some pnext
    else if pfree < next pnext then some (next pnext)
    else if pfree < next (next pnext) then some (next (next pnext))
    else ringSearch next pfree k (next (next (next pnext)))

/-- The search when no special place is right: `pnext`. -/
def estimate (fuel : ℕ) (h : MiniHeap) (k : Links) (pfree len : ℕ) : Option ℕ :=
  let start := if pfree < h.rover then k.next h.freehead else h.rover
  let average := h.numalloc / (h.numfree + 1)
  if average < h.numfree then
    let worst := (h.numalloc + 65536 - h.numfree) % 65536
    let average := if worst ≤ h.numfree then 65535 else average * 2 % 65536
    (scanBlocks h fuel average (pfree + len)).bind fun found =>
      match found with
      | some pnext => some pnext
      | none => ringSearch k.next pfree fuel start
  else ringSearch k.next pfree fuel start

/-- The search when the following block is not free: `pnext`. -/
def place (fuel : ℕ) (h : MiniHeap) (k : Links) (pfree len : ℕ) : Option ℕ :=
  if pfree < h.rover then
    if k.prev h.rover < pfree then some h.rover
    else if pfree < k.next h.freehead then some (k.next h.freehead)
    else estimate fuel h k pfree len
  else if pfree < k.next h.rover then some (k.next h.rover)
  else if k.prev h.freehead < pfree then some h.freehead
  else estimate fuel h k pfree len

/-- Where `__MemFree` is at `found_it`. -/
structure Found where
  pprev : ℕ
  pnext : ℕ
  len : ℕ
  links : Links
  rover : ℕ
  numfree : ℕ

/-- `__MemFree` from the start to `found_it`, for a block that is in use. -/
def insertionSearch (fuel : ℕ) (h : MiniHeap) (k : Links) (pfree : ℕ) : Option Found :=
  match tagAt h.first h.blocks pfree with
  | some (some ⟨len, true⟩) =>
    match tagAt h.first h.blocks (pfree + len) with
    | none => none
    | some (some ⟨nextLen, false⟩) =>
      let pnext := pfree + len
      let rover := if pnext = h.rover then pfree else h.rover
      let pprev := k.prev pnext
      let pnext := k.next pnext
      let k : Links := ⟨Function.update k.next pprev pnext, Function.update k.prev pnext pprev⟩
      some ⟨k.prev pnext, pnext, len + nextLen, k, rover, h.numfree - 1⟩
    | _ => (place fuel h k pfree len).map fun pnext => ⟨k.prev pnext, pnext, len, k, h.rover, h.numfree⟩
  | _ => none

/-! ## The ring -/

/-- The links go through the entries from `freehead` and back, in both directions. -/
def Linked (freehead : ℕ) (l : List ℕ) (k : Links) : Prop :=
  ∀ a b u v, freehead :: l ++ [freehead] = u ++ a :: b :: v → k.next a = b ∧ k.prev b = a

section

variable {f p : ℕ} {l below above : List ℕ} {k : Links}

/-- The entries at a gap of the ring. -/
theorem Linked.gap (h : Linked f (below ++ above) k) :
    k.next (below.getLast?.getD f) = above.head?.getD f ∧ k.prev (above.head?.getD f) = below.getLast?.getD f := by
  have hright : ∃ v, above ++ [f] = above.head?.getD f :: v := by
    cases above with
    | nil => exact ⟨[], rfl⟩
    | cons a above => exact ⟨above ++ [f], rfl⟩
  have hleft : ∃ u, f :: below = u ++ [below.getLast?.getD f] := by
    rcases below.eq_nil_or_concat' with rfl | ⟨below, a, rfl⟩
    · exact ⟨[], rfl⟩
    · rw [List.getLast?_concat]
      exact ⟨f :: below, rfl⟩
  obtain ⟨v, hv⟩ := hright
  obtain ⟨u, hu⟩ := hleft
  refine h _ _ u v ?_
  have hsplit : f :: (below ++ above) ++ [f] = (f :: below) ++ (above ++ [f]) := by simp
  rw [hsplit, hu, hv, List.append_assoc]
  rfl

/-- From an entry the links lead along the ring. -/
theorem Linked.path (h : Linked f l k) {u v : List ℕ} {a : ℕ} (hl : f :: l = u ++ a :: v) :
    Path (fun x => some (k.next x)) (some a) (a :: v) (some f) := by
  induction v generalizing u a with
  | nil =>
      refine ⟨rfl, congrArg some (h a f u [] ?_).1⟩
      rw [hl, List.append_assoc]
      rfl
  | cons b v ih =>
      have hnext : k.next a = b := (h a b u (v ++ [f]) (by rw [hl, List.append_assoc]; rfl)).1
      refine ⟨rfl, ?_⟩
      dsimp only
      rw [hnext]
      exact ih (u := u ++ [a]) (by rw [hl, List.append_assoc]; rfl)

/-- From an entry below a gap they lead to the one behind it. -/
theorem Linked.path_to {a s : ℕ} {rest u w : List ℕ} (h : Linked f (below ++ a :: rest) k)
    (hsplit : f :: below = u ++ s :: w) : Path (fun x => some (k.next x)) (some s) (s :: w) (some a) := by
  have hl : f :: (below ++ a :: rest) = u ++ s :: (w ++ a :: rest) := by
    rw [← List.cons_append, hsplit, List.append_assoc]
    rfl
  have hpath := h.path hl
  rw [← List.cons_append] at hpath
  obtain ⟨r, hw, rfl, -⟩ := path_append.1 hpath
  exact hw

/-- Along entries up to the block the search comes to the first one behind it. -/
theorem ringSearch_path {next : ℕ → ℕ} {a : ℕ} (ha : p < a) : ∀ (fuel : ℕ) (l : List ℕ) (s : ℕ),
    Path (fun x => some (next x)) (some s) l (some a) → (∀ x ∈ l, ¬ p < x) → l.length < 3 * fuel →
    ringSearch next p fuel s = some a
  | 0, _, _, _, _, hfuel => absurd hfuel (by omega)
  | k + 1, [], s, h, _, _ => by
    obtain rfl := Option.some.inj h
    rw [ringSearch, if_pos ha]
  | k + 1, [x], s, h, hle, _ => by
    obtain ⟨hs, hx⟩ := h
    obtain rfl := Option.some.inj hs
    rw [ringSearch, if_neg (hle _ (by simp)), Option.some.inj hx, if_pos ha]
  | k + 1, [x, y], s, h, hle, _ => by
    obtain ⟨hs, hx, hy⟩ := h
    obtain rfl := Option.some.inj hs
    rw [ringSearch, if_neg (hle _ (by simp)), Option.some.inj hx, if_neg (hle _ (by simp)), Option.some.inj hy,
      if_pos ha]
  | k + 1, x :: y :: z :: l, s, h, hle, hfuel => by
    obtain ⟨hs, hx, hy, hz⟩ := h
    obtain rfl := Option.some.inj hs
    rw [ringSearch, if_neg (hle _ (by simp)), Option.some.inj hx, if_neg (hle _ (by simp)), Option.some.inj hy,
      if_neg (hle _ (by simp))]
    refine ringSearch_path ha k l _ hz (fun w hw => hle w (by simp [hw])) ?_
    simp only [List.length_cons] at hfuel
    omega

end

/-! ## The blocks -/

section

variable {h : MiniHeap} {k : Links} {fuel p len : ℕ}

theorem tagAt_append {pre : List Blk} (hpos : ∀ b ∈ pre, 0 < b.len) (rest : List Blk) (addr : ℕ) :
    tagAt addr (pre ++ rest) (addr + (pre.map Blk.len).sum) =
      tagAt (addr + (pre.map Blk.len).sum) rest (addr + (pre.map Blk.len).sum) := by
  induction pre generalizing addr with
  | nil => rfl
  | cons b pre ih =>
      have hb := hpos b List.mem_cons_self
      rw [List.cons_append, List.map_cons, List.sum_cons, tagAt, if_neg (by omega), ← Nat.add_assoc,
        ih (fun c hc => hpos c (List.mem_cons_of_mem _ hc))]

theorem tagAt_head (addr : ℕ) (rest : List Blk) : tagAt addr rest addr = some rest.head? := by
  cases rest <;> exact if_pos rfl

theorem ringFrom_append (addr : ℕ) (pre rest : List Blk) :
    ringFrom addr (pre ++ rest) = ringFrom addr pre ++ ringFrom (addr + (pre.map Blk.len).sum) rest := by
  induction pre generalizing addr with
  | nil => rfl
  | cons b pre ih =>
      rw [List.cons_append, List.map_cons, List.sum_cons, ringFrom, ringFrom, ih, Nat.add_assoc]
      split <;> rfl

theorem ringFrom_length_le (addr : ℕ) (blocks : List Blk) : (ringFrom addr blocks).length ≤ blocks.length := by
  induction blocks generalizing addr with
  | nil => exact le_rfl
  | cons b blocks ih =>
      rw [ringFrom]
      split
      · exact (ih _).trans (Nat.le_succ _)
      · exact Nat.succ_le_succ (ih _)

/-- The scan ends, and a block that it finds is the first free one. -/
theorem scanBlocks_spec (hpos : ∀ b ∈ h.blocks, 0 < b.len) {pre rest : List Blk} (hblocks : h.blocks = pre ++ rest)
    (hfuel : rest.length < fuel) (average : ℕ) :
    ∃ r, scanBlocks h fuel average (h.first + (pre.map Blk.len).sum) = some r ∧ ∀ q, r = some q →
      ((ringFrom (h.first + (pre.map Blk.len).sum) rest).map FreeBlk.addr).head? = some q := by
  induction rest generalizing pre fuel average with
  | nil =>
      obtain ⟨n, rfl⟩ : ∃ n, fuel = n + 1 := ⟨fuel - 1, by omega⟩
      refine ⟨none, ?_, fun q hq => nomatch hq⟩
      rw [scanBlocks, hblocks, tagAt_append (fun b hb => hpos b (by rw [hblocks]; exact List.mem_append_left _ hb)),
        tagAt_head]
      rfl
  | cons b rest ih =>
      obtain ⟨n, rfl⟩ : ∃ n, fuel = n + 1 := ⟨fuel - 1, by omega⟩
      rw [scanBlocks, hblocks, tagAt_append (fun b hb => hpos b (by rw [hblocks]; exact List.mem_append_left _ hb)),
        tagAt_head]
      dsimp only [List.head?_cons]
      rw [ringFrom]
      cases huse : b.inUse with
      | false =>
          rw [if_pos (by decide), if_neg (by decide)]
          exact ⟨_, rfl, fun q hq => hq⟩
      | true =>
          rw [if_neg (by decide), if_pos rfl]
          by_cases haverage : (average + 65535) % 65536 = 0
          · rw [if_pos haverage]
            exact ⟨none, rfl, fun q hq => nomatch hq⟩
          · rw [if_neg haverage]
            have hnext := @ih n (pre ++ [b]) (by rw [hblocks, List.append_assoc]; rfl)
              (by rw [List.length_cons] at hfuel; omega) ((average + 65535) % 65536)
            rwa [List.map_append, List.sum_append, List.map_singleton, List.sum_singleton, ← Nat.add_assoc] at hnext

end

/-! ## The place -/

section

variable {h : MiniHeap} {k : Links} {fuel p len : ℕ} {below above : List ℕ}

/-- A free block follows, and from where the search starts the links lead to it. -/
theorem estimate_spec {a : ℕ} {w : List ℕ} (ha : p < a)
    (hscan : ∀ average, ∃ r, scanBlocks h fuel average (p + len) = some r ∧ ∀ q, r = some q → a = q)
    (hpath : Path (fun x => some (k.next x)) (some (if p < h.rover then k.next h.freehead else h.rover)) w (some a))
    (hw : ∀ x ∈ w, ¬ p < x) (hfuel : w.length < fuel) : estimate fuel h k p len = some a := by
  have hring := ringSearch_path ha fuel w _ hpath hw (by omega)
  unfold estimate
  dsimp only
  rw [hring]
  by_cases hmany : h.numalloc / (h.numfree + 1) < h.numfree
  · rw [if_pos hmany]
    obtain ⟨r, hr, hfound⟩ := hscan (if (h.numalloc + 65536 - h.numfree) % 65536 ≤ h.numfree then 65535
      else h.numalloc / (h.numfree + 1) * 2 % 65536)
    rw [hr, Option.bind_some]
    cases r with
    | none => rfl
    | some q =>
        rw [hfound q rfl]
  · rw [if_neg hmany]

/-- The search finds the first entry behind the block, or `freehead`. -/
theorem place_spec (hlinked : Linked h.freehead (below ++ above) k) (hfree : h.freehead < p)
    (hbelow : ∀ x ∈ below, x < p) (habove : ∀ x ∈ above, p < x) (hrover : h.rover ∈ h.freehead :: (below ++ above))
    (hscan : ∀ average, ∃ r, scanBlocks h fuel average (p + len) = some r ∧ ∀ q, r = some q → above.head? = some q)
    (hfuel : below.length + 1 < fuel) : place fuel h k p len = some (above.head?.getD h.freehead) := by
  have hleft : ∀ x ∈ h.freehead :: below, x < p := fun x hx => by
    rcases List.mem_cons.1 hx with rfl | hx
    · exact hfree
    · exact hbelow x hx
  -- where the ring is searched at last, a free block follows
  have hestimate : ∀ a rest u w, above = a :: rest → h.freehead :: below = u ++ w →
      Path (fun x => some (k.next x)) (some (if p < h.rover then k.next h.freehead else h.rover)) w (some a) →
      estimate fuel h k p len = some (above.head?.getD h.freehead) := by
    rintro a rest u w rfl hsplit hpath
    have hsub : ∀ x ∈ w, x ∈ h.freehead :: below := fun x hx => hsplit ▸ List.mem_append_right u hx
    refine estimate_spec (habove a List.mem_cons_self) (fun average => ?_) hpath
      (fun x hx => (hleft x (hsub x hx)).not_gt) ?_
    · obtain ⟨r, hr, hfound⟩ := hscan average
      exact ⟨r, hr, fun q hq => Option.some.inj (hfound q hq)⟩
    · have hlen := congrArg List.length hsplit
      rw [List.length_cons, List.length_append] at hlen
      omega
  unfold place
  by_cases hside : p < h.rover
  · rw [if_pos hside] at hestimate ⊢
    have hmem : h.rover ∈ above := by
      rcases List.mem_cons.1 hrover with heq | hmem
      · omega
      · rcases List.mem_append.1 hmem with hmem | hmem
        · exact absurd (hbelow _ hmem) (by omega)
        · exact hmem
    obtain ⟨u, v, rfl⟩ := List.append_of_mem hmem
    by_cases hprev : k.prev h.rover < p
    · rw [if_pos hprev]
      rcases u.eq_nil_or_concat' with rfl | ⟨u, b, rfl⟩
      · rfl
      · have hb := (hlinked b h.rover (h.freehead :: (below ++ u)) (v ++ [h.freehead]) (by simp)).2
        have := habove b (by simp)
        omega
    · rw [if_neg hprev]
      by_cases hfirst : p < k.next h.freehead
      · rw [if_pos hfirst]
        cases below with
        | nil => exact congrArg some (@Linked.gap h.freehead [] _ k hlinked).1
        | cons b below =>
            have hb := (hlinked h.freehead b [] (below ++ (u ++ h.rover :: v) ++ [h.freehead]) (by simp)).1
            have := hbelow b List.mem_cons_self
            omega
      · rw [if_neg hfirst]
        obtain ⟨a, rest, habove'⟩ := List.exists_cons_of_ne_nil (List.ne_nil_of_mem hmem)
        rw [habove'] at hlinked
        cases below with
        | nil =>
            have hnext := (@Linked.gap h.freehead [] _ k hlinked).1
            exact absurd (habove a (by simp [habove'])) (fun hlt => hfirst (hnext ▸ hlt))
        | cons b below =>
            have hb := (hlinked h.freehead b [] (below ++ a :: rest ++ [h.freehead]) (by simp)).1
            refine hestimate a rest [h.freehead] (b :: below) habove' rfl ?_
            rw [hb]
            exact @Linked.path_to h.freehead _ k a b rest [h.freehead] below hlinked rfl
  · rw [if_neg hside] at hestimate ⊢
    have hmem : h.rover ∈ h.freehead :: below := by
      rw [← List.cons_append] at hrover
      exact (List.mem_append.1 hrover).resolve_right fun hmem => hside (habove _ hmem)
    obtain ⟨u, w, hsplit⟩ := List.append_of_mem hmem
    by_cases hnext : p < k.next h.rover
    · rw [if_pos hnext]
      cases w with
      | nil =>
          have hlast : below.getLast?.getD h.freehead = h.rover := by
            have := congrArg List.getLast? hsplit
            rw [List.getLast?_concat, List.getLast?_cons] at this
            exact Option.some.inj this
          rw [← hlinked.gap.1, hlast]
      | cons c w =>
          have hc := (hlinked h.rover c u (w ++ above ++ [h.freehead]) (by
            rw [← List.cons_append, hsplit]
            simp)).1
          have := hleft c (by rw [hsplit]; simp)
          omega
    · rw [if_neg hnext]
      by_cases hend : k.prev h.freehead < p
      · rw [if_pos hend]
        rcases above.eq_nil_or_concat' with rfl | ⟨above, z, rfl⟩
        · rfl
        · have hz := (hlinked z h.freehead (h.freehead :: (below ++ above)) [] (by simp)).2
          have := habove z (by simp)
          omega
      · rw [if_neg hend]
        cases above with
        | nil =>
            have hprev := hlinked.gap.2
            rw [List.head?_nil, Option.getD_none] at hprev
            refine absurd (hleft (k.prev h.freehead) ?_) hend
            rw [hprev]
            cases hlast : below.getLast? with
            | none => exact List.mem_cons_self
            | some b => exact List.mem_cons_of_mem _ (List.mem_of_getLast? hlast)
        | cons a rest => exact hestimate a rest u (h.rover :: w) rfl hsplit (hlinked.path_to hsplit)

/-- What the search should find: in the ring without a free block that follows, the neighbours of the block. -/
def Finds (h : MiniHeap) (pfree len : ℕ) (found : Found) : Prop :=
  ∃ below above, (h.ring.map FreeBlk.addr).filter (· ≠ pfree + len) = below ++ above ∧
    (∀ x ∈ below, x < pfree) ∧ (∀ x ∈ above, pfree < x) ∧ h.freehead < pfree ∧
    found.pprev = below.getLast?.getD h.freehead ∧ found.pnext = above.head?.getD h.freehead

/-- A name that is not in the list is not taken out. -/
theorem filter_ne_self {l : List ℕ} {q : ℕ} (h : ∀ x ∈ l, x ≠ q) : l.filter (· ≠ q) = l :=
  List.filter_eq_self.2 fun x hx => decide_eq_true (h x hx)

/-- The search ends and finds the free neighbours of the block. -/
theorem insertionSearch_finds (h : MiniHeap) (k : Links) (hinv : h.Inv)
    (hlinked : Linked h.freehead (h.ring.map FreeBlk.addr) k) (pre rest : List Blk) (len : ℕ)
    (hblocks : h.blocks = pre ++ ⟨len, true⟩ :: rest) (fuel : ℕ) (hfuel : h.blocks.length < fuel) :
    ∃ found, insertionSearch fuel h k (h.first + (pre.map Blk.len).sum) = some found ∧
      Finds h (h.first + (pre.map Blk.len).sum) len found := by
  have hpos : ∀ b ∈ h.blocks, 0 < b.len := fun b hb => lt_of_lt_of_le (by decide) (hinv.pos b hb)
  have hpre : ∀ b ∈ pre, 0 < b.len := fun b hb => hpos b (by rw [hblocks]; exact List.mem_append_left _ hb)
  have hlen : 0 < len := hpos ⟨len, true⟩ (by rw [hblocks]; simp)
  obtain ⟨p, hp⟩ : ∃ p, p = h.first + (pre.map Blk.len).sum := ⟨_, rfl⟩
  have hfree : h.freehead < p := by
    rw [hp]
    unfold MiniHeap.freehead MiniHeap.first heapblkSize
    omega
  obtain ⟨below, hb⟩ : ∃ below, below = (ringFrom h.first pre).map FreeBlk.addr := ⟨_, rfl⟩
  have hbelow : ∀ x ∈ below, x < p := fun x hx => by
    rw [hb] at hx
    obtain ⟨b, hmem, rfl⟩ := List.mem_map.1 hx
    have hle := (ringFrom_addr_le hmem).2
    have := hpre _ (ringFrom_len hmem)
    dsimp only at this
    omega
  have hring : h.ring.map FreeBlk.addr = below ++ (ringFrom (p + len) rest).map FreeBlk.addr := by
    unfold MiniHeap.ring
    rw [hblocks, ringFrom_append, ringFrom, if_pos rfl, ← hp, List.map_append, hb]
  have hlength : below.length + rest.length + 1 ≤ h.blocks.length := by
    rw [hb, List.length_map, hblocks, List.length_append, List.length_cons]
    have := ringFrom_length_le h.first pre
    omega
  have hblocks' : h.blocks = (pre ++ [⟨len, true⟩]) ++ rest := by
    rw [hblocks, List.append_assoc]
    rfl
  have hafter : h.first + ((pre ++ [(⟨len, true⟩ : Blk)]).map Blk.len).sum = p + len := by
    rw [List.map_append, List.sum_append, ← Nat.add_assoc, ← hp]
    rfl
  have htag : tagAt h.first h.blocks p = some (some ⟨len, true⟩) := by
    rw [hblocks, hp, tagAt_append hpre, tagAt_head]
    rfl
  have hnext : tagAt h.first h.blocks (p + len) = some rest.head? := by
    rw [hblocks', ← hafter, tagAt_append (fun b hmem => hpos b (by rw [hblocks']; exact List.mem_append_left _ hmem)),
      tagAt_head]
  have habove : ∀ x ∈ (ringFrom (p + len) rest).map FreeBlk.addr, p + len ≤ x := fun x hx => by
    obtain ⟨b, hmem, rfl⟩ := List.mem_map.1 hx
    exact (ringFrom_addr_le hmem).1
  rw [hring] at hlinked
  rw [← hp]
  unfold insertionSearch
  rw [htag]
  dsimp only
  rw [hnext]
  unfold Finds
  rw [hring]
  have hbelow' : ∀ x ∈ below, x ≠ p + len := fun x hx => by
    have := hbelow x hx
    omega
  by_cases hfollows : ∃ nextLen rest', rest = ⟨nextLen, false⟩ :: rest'
  · -- a free block follows, and is taken out of the ring
    obtain ⟨nextLen, rest, rfl⟩ := hfollows
    have hnextLen : 0 < nextLen := hpos ⟨nextLen, false⟩ (by rw [hblocks]; simp)
    obtain ⟨above, ha⟩ : ∃ above, above = (ringFrom (p + len + nextLen) rest).map FreeBlk.addr := ⟨_, rfl⟩
    have habove' : ∀ x ∈ above, p + len < x := fun x hx => by
      rw [ha] at hx
      obtain ⟨b, hmem, rfl⟩ := List.mem_map.1 hx
      have := (ringFrom_addr_le hmem).1
      omega
    have hfirst : (ringFrom (p + len) (⟨nextLen, false⟩ :: rest)).map FreeBlk.addr = (p + len) :: above := by
      rw [ha]
      rfl
    rw [hfirst] at hlinked ⊢
    refine ⟨_, rfl, below, above, ?_, hbelow, fun x hx => by have := habove' x hx; omega, hfree, ?_, ?_⟩
    · rw [List.filter_append, filter_ne_self hbelow', List.filter_cons_of_neg (by simp),
        filter_ne_self fun x hx => (habove' x hx).ne']
    · dsimp only
      rw [Function.update_self]
      exact hlinked.gap.2
    · rw [List.append_cons] at hlinked
      have hgap := hlinked.gap.1
      rwa [List.getLast?_concat] at hgap
  · -- the tag that follows is that of a block in use, or the end tag
    have hstrict : ∀ x ∈ (ringFrom (p + len) rest).map FreeBlk.addr, p + len < x := by
      cases rest with
      | nil => exact fun x hx => absurd hx List.not_mem_nil
      | cons b rest =>
          obtain ⟨nextLen, inUse⟩ := b
          cases inUse with
          | false => exact absurd ⟨nextLen, rest, rfl⟩ hfollows
          | true =>
              have hnextLen : 0 < nextLen := hpos ⟨nextLen, true⟩ (by rw [hblocks]; simp)
              intro x hx
              rw [ringFrom, if_pos rfl] at hx
              obtain ⟨b, hmem, rfl⟩ := List.mem_map.1 hx
              have := (ringFrom_addr_le hmem).1
              dsimp only at this
              omega
    obtain ⟨above, ha⟩ : ∃ above, above = (ringFrom (p + len) rest).map FreeBlk.addr := ⟨_, rfl⟩
    have hscan : ∀ average, ∃ r, scanBlocks h fuel average (p + len) = some r ∧
        ∀ q, r = some q → above.head? = some q := fun average => by
      have hscan := @scanBlocks_spec h fuel hpos _ rest hblocks' (by omega) average
      rwa [hafter, ← ha] at hscan
    have hrover : h.rover ∈ h.freehead :: (below ++ above) := by
      rcases hinv.rover with heq | ⟨b, hmem, heq⟩
      · rw [heq]
        exact List.mem_cons_self
      · rw [ha, ← hring, ← heq]
        exact List.mem_cons_of_mem _ (List.mem_map_of_mem hmem)
    rw [← ha] at hlinked hstrict ⊢
    have hplace := @place_spec h k fuel p len below above hlinked hfree hbelow
      (fun x hx => by have := hstrict x hx; omega) hrover hscan (by omega)
    refine ⟨⟨below.getLast?.getD h.freehead, above.head?.getD h.freehead, len, k, h.rover, h.numfree⟩, ?_, below, above,
      ?_, hbelow, fun x hx => by have := hstrict x hx; omega, hfree, rfl, rfl⟩
    · rw [← hlinked.gap.2]
      cases rest with
      | nil =>
          dsimp only [List.head?_nil]
          rw [hplace, Option.map_some]
      | cons b rest =>
          obtain ⟨nextLen, inUse⟩ := b
          cases inUse with
          | false => exact absurd ⟨nextLen, rest, rfl⟩ hfollows
          | true =>
              dsimp only [List.head?_cons]
              rw [hplace, Option.map_some]
    · rw [List.filter_append, filter_ne_self hbelow', filter_ne_self fun x hx => (hstrict x hx).ne']

end

/-- A free block and one in use. -/
def twoBlocks : MiniHeap := ⟨0, [⟨8, false⟩, ⟨8, true⟩], 22, 8, 8, 1, 1⟩

/-- The links between `freehead` and the free block. -/
def twoLinks : Links := ⟨fun a => if a = 16 then 22 else 16, fun a => if a = 16 then 22 else 16⟩

theorem twoBlocks_inv : twoBlocks.Inv :=
  ⟨by decide, by decide, .inr ⟨⟨22, 8⟩, by decide, rfl⟩, by decide, by decide⟩

theorem twoLinks_linked : Linked twoBlocks.freehead (twoBlocks.ring.map FreeBlk.addr) twoLinks := by
  intro a b u v h
  have hlist : [16, 22, 16] = u ++ a :: b :: v := h
  match u with
  | [] =>
    obtain ⟨rfl, rfl, -⟩ : 16 = a ∧ 22 = b ∧ [16] = v := by simpa using hlist
    decide
  | [x] =>
    obtain ⟨-, rfl, rfl, -⟩ : 16 = x ∧ 22 = a ∧ 16 = b ∧ [] = v := by simpa using hlist
    decide
  | x :: y :: u =>
    have := congrArg List.length hlist
    simp only [List.length_cons, List.length_append, List.length_nil] at this
    omega

/-- The neighbours of the block in use. -/
theorem insertionSearch_finds_two :
    ∃ found, insertionSearch 3 twoBlocks twoLinks 30 = some found ∧ Finds twoBlocks 30 8 found :=
  insertionSearch_finds twoBlocks twoLinks twoBlocks_inv twoLinks_linked [⟨8, false⟩] [] 8 rfl 3 (by decide)

end OpenWatcom.Clib.FreeSearch
