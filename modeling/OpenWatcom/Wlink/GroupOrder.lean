import OpenWatcom.Lib.StableSort
import Mathlib.Data.List.Nodup
import Mathlib.Data.Prod.Lex

/-! # The order of the groups

`OrderGroups` sorts the list of groups in place: it looks for the first least group of those that are left,
takes it out of the list and links it behind the groups already in order.  `lastgroup` is the link to write
next, so the links are values here (`Link`). -/

namespace OpenWatcom.Wlink

/-! ### Addresses and their comparison -/

/-- `targ_addr`. -/
structure TargAddr where
  off : BitVec 32
  seg : BitVec 16
deriving DecidableEq

/-- `MK_REAL_ADDR`, with the `SegShift` of the format. -/
def TargAddr.realAddr (segShift : ℕ) (a : TargAddr) : BitVec 32 :=
  (a.seg.setWidth 32 <<< segShift) + a.off

/-- `CompareDosSegments`. -/
def compareDosSegments (segShift : ℕ) (left right : TargAddr) : Bool :=
  left.realAddr segShift < right.realAddr segShift

/-- `CompareOffsets`. -/
def compareOffsets (left right : TargAddr) : Bool := left.off < right.off

/-- `CompareProtSegments`. -/
def compareProtSegments (left right : TargAddr) : Bool :=
  if left.seg = right.seg then left.off < right.off else left.seg < right.seg

/-- The comparisons that the loaders pass to `OrderGroups`. -/
inductive Comparison where
  | dosSegments (segShift : ℕ)
  | offsets
  | protSegments

def Comparison.lessthan : Comparison → TargAddr → TargAddr → Bool
  | dosSegments segShift => compareDosSegments segShift
  | offsets => compareOffsets
  | protSegments => compareProtSegments

/-- Each comparison orders by a key. -/
def Comparison.key : Comparison → TargAddr → ℕ ×ₗ ℕ
  | dosSegments segShift, a => toLex (0, (a.realAddr segShift).toNat)
  | offsets, a => toLex (0, a.off.toNat)
  | protSegments, a => toLex (a.seg.toNat, a.off.toNat)

theorem Comparison.lessthan_iff (c : Comparison) (left right : TargAddr) :
    c.lessthan left right = true ↔ c.key left < c.key right := by
  cases c with
  | dosSegments segShift =>
      simp [lessthan, key, compareDosSegments, Prod.Lex.toLex_lt_toLex, BitVec.lt_def]
  | offsets => simp [lessthan, key, compareOffsets, Prod.Lex.toLex_lt_toLex, BitVec.lt_def]
  | protSegments =>
      simp only [lessthan, key, compareProtSegments, Prod.Lex.toLex_lt_toLex]
      by_cases heq : left.seg = right.seg
      · simp [heq, BitVec.lt_def]
      · have hne : left.seg.toNat ≠ right.seg.toNat := fun h => heq (BitVec.eq_of_toNat_eq h)
        simp [heq, hne, BitVec.lt_def]

/-! ### Groups in memory -/

/-- What `OrderGroups` uses of a group. -/
structure GroupNode (γ : Type*) where
  next : Option γ
  grpAddr : TargAddr

/-- `Groups` and the groups. -/
structure GroupHeap (γ : Type*) where
  groups : Option γ
  node : γ → GroupNode γ

/-- A `group_entry **`: `&Groups`, or the address of a group's `next`. -/
inductive Link (γ : Type*) where
  | groups
  | next (g : γ)

namespace GroupHeap

variable {γ : Type*}

def load (h : GroupHeap γ) : Link γ → Option γ
  | .groups => h.groups
  | .next g => (h.node g).next

/-- `grp_addr` of a group. -/
def addr (h : GroupHeap γ) (g : γ) : TargAddr := (h.node g).grpAddr

variable [DecidableEq γ]

def store (h : GroupHeap γ) : Link γ → Option γ → GroupHeap γ
  | .groups, p => { h with groups := p }
  | .next g, p =>
    { h with node := fun x => if x = g then { h.node g with next := p } else h.node x }

@[simp] theorem load_store_same (h : GroupHeap γ) (k : Link γ) (p : Option γ) :
    (h.store k p).load k = p := by
  cases k <;> simp [store, load]

theorem load_store_ne (h : GroupHeap γ) {k k' : Link γ} (hne : k' ≠ k) (p : Option γ) :
    (h.store k p).load k' = h.load k' := by
  cases k with
  | groups =>
      cases k' with
      | groups => exact absurd rfl hne
      | next g' => rfl
  | next g =>
      cases k' with
      | groups => rfl
      | next g' =>
          have hg : g' ≠ g := fun heq => hne (congrArg Link.next heq)
          simp [store, load, hg]

@[simp] theorem addr_store (h : GroupHeap γ) (k : Link γ) (p : Option γ) (g : γ) :
    (h.store k p).addr g = h.addr g := by
  cases k with
  | groups => rfl
  | next x =>
      by_cases hg : g = x
      · simp [store, addr, hg]
      · simp [store, addr, hg]

theorem node_store (h : GroupHeap γ) {k : Link γ} {g : γ} (hk : k ≠ .next g) (p : Option γ) :
    (h.store k p).node g = h.node g := by
  cases k with
  | groups => rfl
  | next x =>
      have hg : g ≠ x := fun heq => hk (congrArg Link.next heq.symm)
      simp [store, hg]

end GroupHeap

/-! ### The loops -/

section loops

variable {γ : Type*} [DecidableEq γ] (lessthan : TargAddr → TargAddr → Bool)

/-- The inner loop: the group before the least one, `NULL` when that is `firstgroup`.  The first argument
bounds the rounds. -/
def findLow (h : GroupHeap γ) : ℕ → γ → TargAddr → Option γ → Option (Option γ)
  | 0, _, _, _ => none
  | n + 1, group, lowAddr, lowGroup =>
    match h.load (.next group) with
    | none => some lowGroup
    | some g =>
      if lessthan (h.addr g) lowAddr then findLow h n g (h.addr g) (some group)
      else findLow h n g lowAddr lowGroup

/-- The outer loop. -/
def orderLoop : ℕ → GroupHeap γ → Option γ → Link γ → Option (GroupHeap γ)
  | 0, _, _, _ => none
  | _ + 1, h, none, _ => some h
  | n + 1, h, some firstgroup, lastgroup =>
    match findLow lessthan h (n + 1) firstgroup (h.addr firstgroup) none with
    | none => none
    | some none =>
      let h := h.store lastgroup (some firstgroup)
      orderLoop n h (h.load (.next firstgroup)) (.next firstgroup)
    | some (some lowGroup) =>
      let h := h.store lastgroup (h.load (.next lowGroup))
      match h.load (.next lowGroup) with
      | none => none
      | some low => orderLoop n (h.store (.next lowGroup) (h.load (.next low))) (some firstgroup) (.next low)

/-- `OrderGroups`; `none` is a loop that was stopped, or a `NULL` that was followed. -/
def GroupHeap.orderGroups (fuel : ℕ) (h : GroupHeap γ) : Option (GroupHeap γ) :=
  orderLoop lessthan fuel h h.groups .groups

end loops

/-! ### Lists of groups -/

section lists

variable {γ : Type*}

/-- The groups from `p` on. -/
def GroupHeap.Chain (h : GroupHeap γ) : Option γ → List γ → Prop
  | p, [] => p = none
  | p, g :: l => p = some g ∧ h.Chain (h.load (.next g)) l

/-- The groups of the list. -/
def GroupHeap.Lists (h : GroupHeap γ) (l : List γ) : Prop := h.Chain h.groups l

/-- The groups that were put in order, and the link behind the last of them. -/
inductive GroupHeap.Path (h : GroupHeap γ) : List γ → Link γ → Prop
  | groups : h.Path [] .groups
  | next {d : List γ} {k : Link γ} {g : γ} (hd : h.Path d k) (hk : h.load k = some g) (hg : g ∉ d) :
      h.Path (d ++ [g]) (.next g)

namespace GroupHeap

variable {h h' : GroupHeap γ} {p : Option γ} {d l : List γ} {k : Link γ} {g m : γ}

theorem Chain.det {l' : List γ} (hl : h.Chain p l) (hl' : h.Chain p l') : l = l' := by
  induction l generalizing p l' with
  | nil =>
      cases l' with
      | nil => rfl
      | cons g' l' => exact absurd (hl'.1.symm.trans hl) (by simp)
  | cons g l ih =>
      cases l' with
      | nil => exact absurd (hl.1.symm.trans hl') (by simp)
      | cons g' l' =>
          obtain rfl : g = g' := Option.some.inj (hl.1.symm.trans hl'.1)
          rw [ih hl.2 hl'.2]

theorem Chain.drop {pre post : List γ} (hl : h.Chain p (pre ++ g :: post)) :
    h.Chain (some g) (g :: post) := by
  induction pre generalizing p with
  | nil => exact ⟨rfl, hl.2⟩
  | cons x pre ih => exact ih hl.2

/-- A list that ends comes to no group twice. -/
theorem Chain.nodup (hl : h.Chain p l) : l.Nodup := by
  induction l generalizing p with
  | nil => exact List.nodup_nil
  | cons g l ih =>
      refine List.nodup_cons.2 ⟨fun hg => ?_, ih hl.2⟩
      obtain ⟨pre, post, rfl⟩ := List.append_of_mem hg
      have hwhole : h.Chain (some g) (g :: (pre ++ g :: post)) := ⟨rfl, hl.2⟩
      have hsame := hwhole.det hl.2.drop
      have hlen := congrArg List.length hsame
      simp only [List.length_cons, List.length_append] at hlen
      omega

theorem Chain.frame (hl : h.Chain p l)
    (hsame : ∀ g ∈ l, h'.load (.next g) = h.load (.next g)) : h'.Chain p l := by
  induction l generalizing p with
  | nil => exact hl
  | cons g l ih =>
      refine ⟨hl.1, ?_⟩
      rw [hsame g List.mem_cons_self]
      exact ih hl.2 fun x hx => hsame x (List.mem_cons_of_mem _ hx)

theorem Path.frame (hd : h.Path d k) (hgroups : k ≠ .groups → h'.load .groups = h.load .groups)
    (hsame : ∀ g ∈ d, k ≠ .next g → h'.load (.next g) = h.load (.next g)) : h'.Path d k := by
  induction hd with
  | groups => exact .groups
  | @next d k g hd hk hg ih =>
      have hload : h'.load k = h.load k := by
        cases hd with
        | groups => exact hgroups (by simp)
        | @next d k g' hd' hk' hg' =>
            refine hsame g' (by simp) fun heq => hg ?_
            cases heq
            simp
      refine .next (ih (fun _ => hgroups (by simp)) fun x hx _ => ?_) (hload.trans hk) hg
      refine hsame x (List.mem_append_left _ hx) fun heq => hg ?_
      cases heq
      exact hx

theorem Path.chain (hd : h.Path d k) (hl : h.Chain (h.load k) l) : h.Chain h.groups (d ++ l) := by
  induction hd generalizing l with
  | groups => exact hl
  | @next d k g hd hk hg ih =>
      rw [List.append_assoc]
      exact ih ⟨hk, hl⟩

/-- The link behind the groups in order is `&Groups` or the `next` of one of them. -/
theorem Path.link_ne (hd : h.Path d k) (hg : g ∉ d) : k ≠ .next g := by
  cases hd with
  | groups => simp
  | @next d k g' hd hk hg' =>
      rintro heq
      cases heq
      simp at hg

theorem Chain.next_eq {pre post : List γ} (hl : h.Chain p (pre ++ g :: m :: post)) :
    h.load (.next g) = some m :=
  hl.drop.2.1

variable [DecidableEq γ]

theorem Path.store_last (hd : h.Path d k) (p : Option γ) : (h.store k p).Path d k :=
  hd.frame (fun hne => load_store_ne h hne.symm p) fun _ _ hne => load_store_ne h hne.symm p

theorem Chain.store (hl : h.Chain p l) (hk : ∀ g ∈ l, k ≠ .next g) (q : Option γ) :
    (h.store k q).Chain p l :=
  hl.frame fun g hg => load_store_ne h (hk g hg).symm q

theorem Path.store_next (hd : h.Path d k) (hg : g ∉ d) (q : Option γ) :
    (h.store (.next g) q).Path d k := by
  refine hd.frame (fun _ => load_store_ne h (by simp) q) fun x hx _ => load_store_ne h ?_ q
  rintro heq
  cases heq
  exact hg hx

/-- The list without the group behind `g`. -/
theorem Chain.unlink {pre post : List γ} (hl : h.Chain p (pre ++ g :: m :: post)) :
    (h.store (.next g) (h.load (.next m))).Chain p (pre ++ g :: post) := by
  have hnodup := hl.nodup
  induction pre generalizing p with
  | nil =>
      refine ⟨hl.1, ?_⟩
      rw [load_store_same]
      refine Chain.store hl.2.2 (fun x hx heq => ?_) _
      cases heq
      simp [hx] at hnodup
  | cons x pre ih =>
      refine ⟨hl.1, ?_⟩
      have hx : x ≠ g := by
        rintro rfl
        simp at hnodup
      rw [load_store_ne h (by simpa using hx)]
      exact ih hl.2 (List.nodup_cons.1 hnodup).2

end GroupHeap

end lists

/-! ### The order -/

section order

variable {γ : Type*} {lessthan : TargAddr → TargAddr → Bool}

/-- The groups ordered by their addresses. -/
def GroupHeap.Before (h : GroupHeap γ) (lessthan : TargAddr → TargAddr → Bool) (g g' : γ) : Prop :=
  lessthan (h.addr g) (h.addr g') = true

instance (h : GroupHeap γ) (lessthan : TargAddr → TargAddr → Bool) :
    DecidableRel (h.Before lessthan) :=
  fun g g' => inferInstanceAs (Decidable (lessthan (h.addr g) (h.addr g') = true))

/-- The inner loop finds the first least group of those that are left, from the ones it has seen. -/
theorem findLow_earliest (h : GroupHeap γ) [IsStrictWeakOrder γ (h.Before lessthan)]
    {pre mid front rest : List γ} {low group : γ}
    (hseen : pre ++ low :: mid = front ++ [group]) (hlow : Earliest (h.Before lessthan) pre low mid)
    (hrest : h.Chain (h.load (.next group)) rest) :
    ∃ pre' m post, pre ++ low :: mid ++ rest = pre' ++ m :: post ∧
      Earliest (h.Before lessthan) pre' m post ∧
      ∀ fuel, rest.length < fuel →
        findLow lessthan h fuel group (h.addr low) pre.getLast? = some pre'.getLast? := by
  induction rest generalizing pre mid front low group with
  | nil =>
      refine ⟨pre, low, mid, by simp, hlow, fun fuel hfuel => ?_⟩
      obtain ⟨n, rfl⟩ : ∃ n, fuel = n + 1 := ⟨fuel - 1, by simp at hfuel; omega⟩
      have hnone : h.load (.next group) = none := hrest
      simp [findLow, hnone]
  | cons g rest ih =>
      obtain ⟨hnext, hrest⟩ := hrest
      by_cases hlt : h.Before lessthan g low
      · -- the new least group is behind all groups seen so far
        obtain ⟨pre', m, post, heq, hm, hrun⟩ :=
          ih (show pre ++ low :: mid ++ [g] = pre ++ low :: mid ++ [g] from rfl) (hlow.take hlt) hrest
        refine ⟨pre', m, post, by simpa using heq, hm, fun fuel hfuel => ?_⟩
        obtain ⟨n, rfl⟩ : ∃ n, fuel = n + 1 := ⟨fuel - 1, by simp at hfuel; omega⟩
        have hrec := hrun n (by simpa using hfuel)
        rw [hseen, List.getLast?_concat] at hrec
        have hlt' : lessthan (h.addr g) (h.addr low) = true := hlt
        simp only [findLow, hnext, hlt', if_true, hrec]
      · have hseen' : pre ++ low :: (mid ++ [g]) = front ++ [group] ++ [g] := by
          rw [← List.cons_append, ← List.append_assoc, hseen]
        obtain ⟨pre', m, post, heq, hm, hrun⟩ := ih hseen' (hlow.keep hlt) hrest
        refine ⟨pre', m, post, by simpa using heq, hm, fun fuel hfuel => ?_⟩
        obtain ⟨n, rfl⟩ : ∃ n, fuel = n + 1 := ⟨fuel - 1, by simp at hfuel; omega⟩
        have hrec := hrun n (by simpa using hfuel)
        have hlt' : ¬ lessthan (h.addr g) (h.addr low) = true := hlt
        simp only [findLow, hnext, if_neg hlt', hrec]

/-- The state between two rounds of the outer loop: the groups `done` are linked in order, and the groups
`rest` are still to be placed. -/
structure OrderState (lessthan : TargAddr → TargAddr → Bool) (h₀ : GroupHeap γ) (l : List γ)
    (h : GroupHeap γ) (done rest : List γ) (firstgroup : Option γ) (lastgroup : Link γ) : Prop where
  path : h.Path done lastgroup
  chain : h.Chain firstgroup rest
  disjoint : ∀ g ∈ done, g ∉ rest
  ended : rest = [] → h.load lastgroup = none
  selecting : Selecting (h₀.Before lessthan) l done rest
  addr : ∀ g, h.addr g = h₀.addr g
  frame : ∀ g, g ∉ l → h.node g = h₀.node g

namespace OrderState

variable {h₀ h : GroupHeap γ} {l done rest : List γ} {first : γ} {firstgroup : Option γ}
  {lastgroup : Link γ}

theorem init (hl : h.Lists l) : OrderState lessthan h l h [] l h.groups .groups where
  path := .groups
  chain := hl
  disjoint := by simp
  ended := by
    rintro rfl
    exact hl
  selecting := Selecting.init l
  addr _ := rfl
  frame _ _ := rfl

theorem mem_rest (ho : OrderState lessthan h₀ l h done rest firstgroup lastgroup) {g : γ}
    (hg : g ∈ rest) : g ∉ done ∧ g ∈ l :=
  ⟨fun hdone => ho.disjoint g hdone hg,
    ho.selecting.perm.mem_iff.1 (List.mem_append_right _ hg)⟩

/-- The links that a round writes are `&Groups` or belong to groups of the list. -/
theorem link_ne (ho : OrderState lessthan h₀ l h done rest firstgroup lastgroup) {g : γ}
    (hg : g ∉ l) : lastgroup ≠ .next g :=
  ho.path.link_ne fun hdone => hg (ho.selecting.perm.mem_iff.1 (List.mem_append_left _ hdone))

variable [DecidableEq γ] [IsStrictWeakOrder γ (h₀.Before lessthan)]

/-- A round that places `firstgroup`. -/
theorem takeFirst (ho : OrderState lessthan h₀ l h done (first :: rest) (some first) lastgroup)
    (hfirst : Earliest (h₀.Before lessthan) [] first rest) :
    OrderState lessthan h₀ l (h.store lastgroup (some first)) (done ++ [first]) rest
      ((h.store lastgroup (some first)).load (.next first)) (.next first) := by
  have hne : ∀ g ∈ first :: rest, lastgroup ≠ .next g := fun g hg =>
    ho.path.link_ne (ho.mem_rest hg).1
  have hchain := (ho.chain.store hne (some first)).2
  constructor
  case path =>
    exact .next (ho.path.store_last _) (h.load_store_same _ _) (ho.mem_rest List.mem_cons_self).1
  case chain => exact hchain
  case disjoint =>
    intro g hg hrest
    rcases List.mem_append.1 hg with hg | hg
    · exact ho.disjoint g hg (List.mem_cons_of_mem _ hrest)
    · rw [List.mem_singleton.1 hg] at hrest
      exact (List.nodup_cons.1 ho.chain.nodup).1 hrest
  case ended =>
    rintro rfl
    exact hchain
  case selecting =>
    have hsel : Selecting (h₀.Before lessthan) l done ([] ++ first :: rest) := ho.selecting
    exact hsel.step hfirst
  case addr => simpa using ho.addr
  case frame =>
    intro g hg
    rw [GroupHeap.node_store h (ho.link_ne hg), ho.frame g hg]

/-- A round that takes the group behind `lowGroup` out of the list. -/
theorem takeNext {pre post : List γ} {lowGroup m : γ}
    (ho : OrderState lessthan h₀ l h done (pre ++ lowGroup :: m :: post) firstgroup lastgroup)
    (hm : Earliest (h₀.Before lessthan) (pre ++ [lowGroup]) m post) :
    let h₁ := h.store lastgroup (some m)
    OrderState lessthan h₀ l (h₁.store (.next lowGroup) (h₁.load (.next m))) (done ++ [m])
      (pre ++ lowGroup :: post) firstgroup (.next m) := by
  intro h₁
  have hlow := ho.mem_rest (g := lowGroup) (by simp)
  have hmem := ho.mem_rest (g := m) (by simp)
  have hne : ∀ g ∈ pre ++ lowGroup :: m :: post, lastgroup ≠ .next g := fun g hg =>
    ho.path.link_ne (ho.mem_rest hg).1
  have hchain₁ : h₁.Chain firstgroup (pre ++ lowGroup :: m :: post) := ho.chain.store hne (some m)
  have hlast : (h₁.store (.next lowGroup) (h₁.load (.next m))).load lastgroup = some m := by
    rw [GroupHeap.load_store_ne h₁ (ho.path.link_ne hlow.1)]
    exact h.load_store_same lastgroup (some m)
  constructor
  case path =>
    exact .next ((ho.path.store_last _).store_next hlow.1 _) hlast hmem.1
  case chain => exact hchain₁.unlink
  case disjoint =>
    intro g hg hrest
    have hsub : g ∈ pre ++ lowGroup :: m :: post := by
      simp only [List.mem_append, List.mem_cons] at hrest ⊢
      tauto
    rcases List.mem_append.1 hg with hg | hg
    · exact ho.disjoint g hg hsub
    · rw [List.mem_singleton.1 hg] at hrest
      have hnodup := hchain₁.nodup
      rw [List.append_cons, List.nodup_middle] at hnodup
      exact (List.nodup_cons.1 hnodup).1 (by simpa using hrest)
  case ended => simp
  case selecting =>
    have hsel : Selecting (h₀.Before lessthan) l done (pre ++ [lowGroup] ++ m :: post) := by
      simpa using ho.selecting
    simpa using hsel.step hm
  case addr => simpa [h₁] using ho.addr
  case frame =>
    intro g hg
    have hg' : Link.next lowGroup ≠ .next g := by
      rintro heq
      cases heq
      exact hg hlow.2
    rw [GroupHeap.node_store h₁ hg', GroupHeap.node_store h (ho.link_ne hg), ho.frame g hg]

end OrderState

/-- The list is sorted, and nothing but links of its groups has changed. -/
structure Ordered (lessthan : TargAddr → TargAddr → Bool) (h₀ : GroupHeap γ) (l : List γ)
    (h : GroupHeap γ) (r : List γ) : Prop where
  lists : h.Lists r
  sorted : StableSorted (h₀.Before lessthan) l r
  addr : ∀ g, h.addr g = h₀.addr g
  frame : ∀ g, g ∉ l → h.node g = h₀.node g

variable [DecidableEq γ]

/-- The rounds of the outer loop, by induction on the number of groups left. -/
theorem orderLoop_sorts (h₀ : GroupHeap γ) [IsStrictWeakOrder γ (h₀.Before lessthan)] (n : ℕ)
    {h : GroupHeap γ} {l done rest : List γ} {firstgroup : Option γ} {lastgroup : Link γ}
    (hn : rest.length = n)
    (ho : OrderState lessthan h₀ l h done rest firstgroup lastgroup) :
    ∃ h' r, Ordered lessthan h₀ l h' r ∧
      ∀ fuel, n < fuel → orderLoop lessthan fuel h firstgroup lastgroup = some h' := by
  have hbefore : h.Before lessthan = h₀.Before lessthan := by
    funext g g'
    simp only [GroupHeap.Before, ho.addr]
  induction n generalizing h done rest firstgroup lastgroup with
  | zero =>
      obtain rfl := List.length_eq_zero_iff.1 hn
      have hnone : firstgroup = none := ho.chain
      have hlists : h.Lists (done ++ []) := ho.path.chain (ho.ended rfl)
      refine ⟨h, done, ⟨by simpa using hlists, ho.selecting.finish, ho.addr, ho.frame⟩,
        fun fuel hfuel => ?_⟩
      obtain ⟨k, rfl⟩ : ∃ k, fuel = k + 1 := ⟨fuel - 1, by omega⟩
      rw [hnone, orderLoop]
  | succ n ih =>
      obtain ⟨first, rest, rfl⟩ := List.exists_cons_of_length_eq_add_one hn
      have hlen : rest.length = n := by simpa using hn
      have hlen' : (first :: rest).length = n + 1 := hn
      obtain ⟨rfl, htail⟩ := ho.chain
      have : IsStrictWeakOrder γ (h.Before lessthan) := hbefore ▸ inferInstance
      have hsingle : Earliest (h.Before lessthan) [] first [] := Earliest.single first
      obtain ⟨pre, m, post, heq, hm, hfind⟩ :=
        findLow_earliest h (show [] ++ [first] = [] ++ [first] from rfl) hsingle htail
      simp only [List.nil_append, List.cons_append, List.getLast?_nil] at heq hfind
      rw [hbefore] at hm
      rcases List.eq_nil_or_concat pre with rfl | ⟨pre, lowGroup, rfl⟩
      · obtain ⟨rfl, rfl⟩ := List.cons.inj heq
        have ho' := ho.takeFirst hm
        obtain ⟨h', r, hr, hrun⟩ := ih hlen ho' (by
          funext g g'
          simp only [GroupHeap.Before, ho'.addr])
        refine ⟨h', r, hr, fun fuel hfuel => ?_⟩
        obtain ⟨k, rfl⟩ : ∃ k, fuel = k + 1 := ⟨fuel - 1, by omega⟩
        rw [orderLoop, hfind (k + 1) (by omega)]
        exact hrun k (by omega)
      · have heq' : first :: rest = pre ++ lowGroup :: m :: post := by simpa using heq
        rw [heq'] at ho hlen'
        have hnext : h.load (.next lowGroup) = some m := ho.chain.next_eq
        have hlow : lowGroup ∉ done := (ho.mem_rest (by simp)).1
        have ho' := ho.takeNext (by simpa using hm)
        have hlen₁ : (pre ++ lowGroup :: post).length = n := by
          simp only [List.length_append, List.length_cons] at hlen' ⊢
          omega
        obtain ⟨h', r, hr, hrun⟩ := ih hlen₁ ho' (by
          funext g g'
          simp only [GroupHeap.Before, ho'.addr])
        refine ⟨h', r, hr, fun fuel hfuel => ?_⟩
        obtain ⟨k, rfl⟩ : ∃ k, fuel = k + 1 := ⟨fuel - 1, by omega⟩
        have hsome : (h.store lastgroup (some m)).load (.next lowGroup) = some m := by
          rw [GroupHeap.load_store_ne h (ho.path.link_ne hlow).symm, hnext]
        rw [orderLoop, hfind (k + 1) (by omega), List.concat_eq_append, List.getLast?_concat]
        simp only [hnext, hsome]
        exact hrun k (by omega)

end order

/-- Groups are less when their keys are. -/
instance (c : Comparison) {γ : Type*} (h : GroupHeap γ) :
    IsStrictWeakOrder γ (h.Before c.lessthan) := by
  have heq : h.Before c.lessthan = Order.Preimage (fun g => c.key (h.addr g)) (· < ·) := by
    funext g g'
    exact propext (c.lessthan_iff (h.addr g) (h.addr g'))
  have : IsStrictWeakOrder (ℕ ×ₗ ℕ) (· < ·) := isStrictWeakOrder_of_isOrderConnected
  rw [heq]
  infer_instance

/-- `OrderGroups` ends, for every list and every comparison; the list afterwards holds the same groups in
order, and groups that compare equal in the order they had. -/
theorem orderGroups_stableSorted {γ : Type*} [DecidableEq γ] (c : Comparison) {h : GroupHeap γ}
    {l : List γ} (hl : h.Lists l) :
    ∃ h' r, Ordered c.lessthan h l h' r ∧
      ∀ fuel, l.length < fuel → GroupHeap.orderGroups c.lessthan fuel h = some h' :=
  orderLoop_sorts h l.length rfl (OrderState.init hl)

/-- Three groups, the second of them the least and the others tied. -/
def tiedGroups : GroupHeap ℕ where
  groups := some 0
  node
    | 0 => ⟨some 1, ⟨0x20#32, 0#16⟩⟩
    | 1 => ⟨some 2, ⟨0x10#32, 0#16⟩⟩
    | _ => ⟨none, ⟨0x10#32, 1#16⟩⟩

theorem orderGroups_tied :
    ∃ h' r, Ordered (Comparison.dosSegments 4).lessthan tiedGroups [0, 1, 2] h' r ∧
      ∀ fuel, 3 < fuel →
        GroupHeap.orderGroups (Comparison.dosSegments 4).lessthan fuel tiedGroups = some h' :=
  orderGroups_stableSorted (.dosSegments 4) (h := tiedGroups) (l := [0, 1, 2])
    ⟨rfl, rfl, rfl, rfl⟩

end OpenWatcom.Wlink
