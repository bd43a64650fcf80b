import OpenWatcom.Lib.Chains

/-! # Rings

Circular lists through the `next` fields of their elements, with a header that points at the last one. The elements from
the one after the last to the last are the sequence that the operations work on. -/

namespace OpenWatcom.Wlink.Ring

open Chains

/-- The header of a ring and the fields `next`; `none` is `NULL`. -/
structure Store (α : Type*) where
  hdr : Option α
  next : α → Option α

variable {α : Type*} [DecidableEq α]

/-! ## The operations

They yield nothing where the code follows a pointer that is `NULL`. -/

/-- `RingAppend`. -/
def append (s : Store α) (element : α) : Store α :=
  match s.hdr with
  | none => ⟨some element, Function.update s.next element (some element)⟩
  | some last => ⟨some element, Function.update (Function.update s.next element (s.next last)) last (some element)⟩

/-- `RingPromote`. -/
def promote (s : Store α) (element : α) (prev : Option α) : Option (Store α) :=
  match prev with
  | none => some s
  | some prev =>
    if s.hdr = some prev then some s
    else
      s.hdr.map fun last =>
        if last ≠ element then
          let next := Function.update s.next prev (s.next element)
          let next := Function.update next element (next last)
          ⟨some last, Function.update next last (some element)⟩
        else { s with hdr := some prev }

/-- `RingInsert`. -/
def insert (s : Store α) (element : α) (insert : Option α) : Store α :=
  match s.hdr with
  | none => append s element
  | some last =>
    if some last = insert then append s element
    else
      match insert with
      | none => { s with next := Function.update (Function.update s.next element (s.next last)) last (some element) }
      | some i => { s with next := Function.update (Function.update s.next element (s.next i)) i (some element) }

/-- The loop of `RingPred`, for so many rounds at most. -/
def predLoop (next : α → Option α) (rhdr element : α) : ℕ → α → Option (Option α)
  | 0, _ => none
  | k + 1, pred =>
    (next pred).bind fun n =>
      if element = n then some (some pred) else if n = rhdr then some none else predLoop next rhdr element k n

/-- `RingPred`. -/
def pred (fuel : ℕ) (s : Store α) (element : α) : Option (Option α) :=
  match s.hdr with
  | none => some none
  | some rhdr => predLoop s.next rhdr element fuel rhdr

/-- `RingPruneWithPrev`. -/
def pruneWithPrev (s : Store α) (element : α) (prev : Option α) : Option (Store α) :=
  (prev.or s.hdr).map fun prev =>
    let next := Function.update s.next prev (s.next element)
    let hdr := if prev = element then none else if s.hdr = some element then some prev else s.hdr
    ⟨hdr, Function.update next element none⟩

/-- `RingPrune`. -/
def prune (fuel : ℕ) (s : Store α) (element : α) : Option (Store α) :=
  (pred fuel s element).bind fun prev => pruneWithPrev s element prev

/-- `RingPush`. -/
def push (s : Store α) (element : α) : Store α :=
  match s.hdr with
  | none => ⟨some element, Function.update s.next element (some element)⟩
  | some last => { s with next := Function.update (Function.update s.next element (s.next last)) last (some element) }

/-- `RingPop`: the first element, and the ring. -/
def pop (s : Store α) : Option (Option α × Store α) :=
  match s.hdr with
  | none => some (none, s)
  | some last =>
    (s.next last).map fun first =>
      if first = last then (some first, { s with hdr := none })
      else (some first, { s with next := Function.update s.next last (s.next first) })

/-! ## The sequence of a ring -/

/-- The header points at the last element of the sequence, from which the links lead through it and back. -/
structure IsRing (s : Store α) (l : List α) : Prop where
  hdr : s.hdr = l.getLast?
  circular : ∀ last, s.hdr = some last → Path s.next (s.next last) l (s.next last)
  nodup : l.Nodup

/-- What may be given for the element before the one behind `a`. -/
def MayPrecede (l a : List α) (prev : Option α) : Prop := prev = a.getLast? ∨ a = [] ∧ prev = l.getLast?

variable {s : Store α} {l m : List α} {x z : α}

omit [DecidableEq α] in
theorem isRing_concat : IsRing s (m ++ [z]) ↔
    s.hdr = some z ∧ Path s.next (s.next z) m (some z) ∧ (m ++ [z]).Nodup := by
  have hpath : Path s.next (s.next z) (m ++ [z]) (s.next z) ↔ Path s.next (s.next z) m (some z) := by
    rw [path_append]
    constructor
    · rintro ⟨r, hm, rfl, -⟩
      exact hm
    · intro hm
      exact ⟨some z, hm, rfl, rfl⟩
  constructor
  · intro h
    have hhdr : s.hdr = some z := h.hdr.trans List.getLast?_concat
    exact ⟨hhdr, hpath.1 (h.circular z hhdr), h.nodup⟩
  · rintro ⟨hhdr, hm, hnodup⟩
    refine ⟨hhdr.trans List.getLast?_concat.symm, fun last hlast => ?_, hnodup⟩
    obtain rfl := Option.some.inj (hhdr.symm.trans hlast)
    exact hpath.2 hm

omit [DecidableEq α] in
theorem isRing_nil (h : IsRing s []) : s.hdr = none := h.hdr

omit [DecidableEq α] in
theorem isRing_empty (h : s.hdr = none) : IsRing s [] :=
  ⟨h, fun _ hlast => absurd (h.symm.trans hlast) (by simp), List.nodup_nil⟩

/-- A single element whose link leads to itself. -/
theorem isRing_single (next : α → Option α) : IsRing ⟨some x, Function.update next x (some x)⟩ [x] := by
  have h := @isRing_concat α ⟨some x, Function.update next x (some x)⟩ [] x
  refine h.2 ⟨rfl, ?_, List.nodup_singleton x⟩
  exact Function.update_self ..

omit [DecidableEq α] in
theorem notMem_of_nodup {a b : List α} {p : α} (h : (a ++ p :: b).Nodup) : p ∉ a ∧ p ∉ b := by
  have hp := (List.nodup_cons.1 (List.nodup_middle.1 h)).1
  exact ⟨fun ha => hp (List.mem_append_left b ha), fun hb => hp (List.mem_append_right a hb)⟩

theorem path_update {next : α → Option α} {p q r : Option α} (h : Path next p l q) (hx : x ∉ l) :
    Path (Function.update next x r) p l q :=
  h.congr fun _ ha => Function.update_of_ne (ne_of_mem_of_not_mem ha hx) ..

omit [DecidableEq α] in
theorem IsRing.mem_apart (h : IsRing s (m ++ [z])) (hx : x ∉ m ++ [z]) : x ≠ z ∧ x ∉ m ∧ z ∉ m := by
  obtain ⟨-, -, hnodup⟩ := isRing_concat.1 h
  rw [List.mem_append, List.mem_singleton, not_or] at hx
  exact ⟨hx.2, hx.1, (notMem_of_nodup hnodup).1⟩

theorem append_isRing (h : IsRing s l) (hx : x ∉ l) : IsRing (append s x) (l ++ [x]) := by
  have hnodup : (l ++ [x]).Nodup :=
    (List.perm_append_singleton x l).nodup_iff.2 (List.nodup_cons.2 ⟨hx, h.nodup⟩)
  rcases l.eq_nil_or_concat' with rfl | ⟨m, z, rfl⟩
  · unfold append
    rw [isRing_nil h]
    exact isRing_single s.next
  · obtain ⟨hhdr, hm, -⟩ := isRing_concat.1 h
    obtain ⟨hxz, hxm, hzm⟩ := h.mem_apart hx
    unfold append
    rw [hhdr]
    refine isRing_concat.2 ⟨rfl, ?_, hnodup⟩
    dsimp only
    rw [Function.update_of_ne hxz, Function.update_self, path_append]
    refine ⟨some z, path_update (path_update hm hxm) hzm, rfl, ?_⟩
    exact Function.update_self ..

theorem push_isRing (h : IsRing s l) (hx : x ∉ l) : IsRing (push s x) (x :: l) := by
  rcases l.eq_nil_or_concat' with rfl | ⟨m, z, rfl⟩
  · unfold push
    rw [isRing_nil h]
    exact isRing_single s.next
  · obtain ⟨hhdr, hm, hnodup⟩ := isRing_concat.1 h
    obtain ⟨hxz, hxm, hzm⟩ := h.mem_apart hx
    unfold push
    rw [hhdr, ← List.cons_append]
    refine isRing_concat.2 ⟨rfl, ⟨Function.update_self .., ?_⟩, List.nodup_cons.2 ⟨hx, hnodup⟩⟩
    dsimp only
    rw [Function.update_of_ne hxz, Function.update_self]
    exact path_update (path_update hm hxm) hzm

/-- At the start of the ring. -/
theorem insert_none_isRing (h : IsRing s l) (hx : x ∉ l) : IsRing (insert s x none) (x :: l) := by
  have hpush := push_isRing h hx
  unfold insert
  unfold push at hpush
  cases hhdr : s.hdr with
  | none =>
    obtain rfl : l = [] := List.getLast?_eq_none_iff.1 (h.hdr.symm.trans hhdr)
    exact append_isRing h hx
  | some last =>
    rw [hhdr] at hpush
    dsimp only
    rw [if_neg (by simp)]
    exact hpush

/-- Behind an element. -/
theorem insert_some_isRing {a b : List α} {i : α} (h : IsRing s (a ++ i :: b)) (hx : x ∉ a ++ i :: b) :
    IsRing (insert s x (some i)) (a ++ i :: x :: b) := by
  rcases b.eq_nil_or_concat' with rfl | ⟨b, z, rfl⟩
  · have happend := append_isRing h hx
    rw [List.append_assoc] at happend
    unfold insert
    rw [(isRing_concat.1 h).1]
    dsimp only
    rw [if_pos rfl]
    exact happend
  · have hlist : a ++ i :: (b ++ [z]) = (a ++ i :: b) ++ [z] := by simp
    rw [hlist] at h hx
    obtain ⟨hhdr, hm, hnodup⟩ := isRing_concat.1 h
    obtain ⟨hxz, hxm, hzm⟩ := h.mem_apart hx
    obtain ⟨r, ha, rfl, hb⟩ := path_append.1 hm
    have hnodup' : (a ++ i :: x :: b ++ [z]).Nodup := by
      have hperm : (a ++ i :: x :: b ++ [z]).Perm (x :: (a ++ i :: b ++ [z])) := by
        have := @List.perm_middle α x (a ++ [i]) (b ++ [z])
        simpa using this
      exact hperm.nodup_iff.2 (List.nodup_cons.2 ⟨hx, hnodup⟩)
    have hia := notMem_of_nodup (List.nodup_append.1 hnodup).1
    have hxa : x ∉ a ∧ x ≠ i ∧ x ∉ b := by simpa using hxm
    have hza : z ≠ i := fun heq => hzm (by simp [heq])
    rw [show a ++ i :: x :: (b ++ [z]) = (a ++ i :: x :: b) ++ [z] by simp]
    unfold insert
    rw [hhdr]
    dsimp only
    rw [if_neg (by simpa using hza)]
    refine isRing_concat.2 ⟨rfl, ?_, hnodup'⟩
    dsimp only
    rw [Function.update_of_ne hza, Function.update_of_ne (Ne.symm hxz), path_append]
    refine ⟨some i, path_update (path_update ha hxa.1) hia.1, rfl, ?_, ?_⟩
    · exact Function.update_self ..
    · rw [Function.update_of_ne hxa.2.1, Function.update_self]
      exact path_update (path_update hb hxa.2.2) hia.2

/-- The sequence as what is before an element, the element and what is behind it. -/
structure Split (a : List α) (x : α) (b : List α) : Prop where
  notMem_left : x ∉ a
  notMem_right : x ∉ b
  nodup : (a ++ b).Nodup

omit [DecidableEq α] in
theorem IsRing.split {a b : List α} (h : IsRing s (a ++ x :: b)) : Split a x b := by
  have hnodup := List.nodup_cons.1 (List.nodup_middle.1 h.nodup)
  exact ⟨fun ha => hnodup.1 (List.mem_append_left b ha), fun hb => hnodup.1 (List.mem_append_right a hb), hnodup.2⟩

theorem promote_isRing {a b : List α} {prev : Option α} (h : IsRing s (a ++ x :: b))
    (hprev : MayPrecede (a ++ x :: b) a prev) : ∃ s', promote s x prev = some s' ∧ IsRing s' (x :: (a ++ b)) := by
  obtain ⟨hxa, hxb, hab⟩ := h.split
  have hnodup : (x :: (a ++ b)).Nodup :=
    List.nodup_cons.2 ⟨fun hx => (List.mem_append.1 hx).elim hxa hxb, hab⟩
  rcases a.eq_nil_or_concat' with rfl | ⟨a, p, rfl⟩
  · -- at the front already
    refine ⟨s, ?_, h⟩
    rcases hprev with rfl | ⟨-, rfl⟩
    · rfl
    · rw [← h.hdr]
      unfold promote
      cases hhdr : s.hdr with
      | none => rfl
      | some last => exact if_pos rfl
  · obtain rfl : prev = some p := by
      rcases hprev with hprev | ⟨hnil, -⟩
      · rwa [List.getLast?_concat] at hprev
      · exact absurd hnil (by simp)
    have hxp : x ≠ p := fun heq => hxa (by simp [heq])
    have hpa : p ∉ a := (notMem_of_nodup (List.nodup_append.1 hab).1).1
    unfold promote
    dsimp only
    rcases b.eq_nil_or_concat' with rfl | ⟨b, z, rfl⟩
    · -- the last one
      obtain ⟨hhdr, hm, -⟩ := isRing_concat.1 h
      obtain ⟨r, ha, rfl, hp⟩ := path_append.1 hm
      rw [if_neg (by rw [hhdr]; simpa using hxp), hhdr]
      refine ⟨_, rfl, ?_⟩
      dsimp only
      rw [if_neg (not_not.2 rfl)]
      rw [List.append_nil, ← List.cons_append] at hnodup ⊢
      refine isRing_concat.2 ⟨rfl, ⟨hp, ha⟩, hnodup⟩
    · have hlist : a ++ [p] ++ x :: (b ++ [z]) = (a ++ p :: x :: b) ++ [z] := by simp
      rw [hlist] at h
      obtain ⟨hhdr, hm, hz⟩ := isRing_concat.1 h
      obtain ⟨r, ha, rfl, hp, hb⟩ := path_append.1 hm
      have hzm : z ∉ a ++ p :: x :: b := fun hmem => (List.nodup_append.1 hz).2.2 z hmem z (by simp) rfl
      have hzp : z ≠ p := fun heq => hzm (by simp [heq])
      have hzx : z ≠ x := fun heq => hzm (by simp [heq])
      have hpb : p ∉ b := fun hp => (notMem_of_nodup (List.nodup_append.1 hz).1).2 (List.mem_cons_of_mem x hp)
      rw [if_neg (by rw [hhdr]; simpa using hzp), hhdr]
      refine ⟨_, rfl, ?_⟩
      dsimp only
      rw [if_pos hzx]
      rw [show x :: (a ++ [p] ++ (b ++ [z])) = (x :: (a ++ p :: b)) ++ [z] by simp] at hnodup ⊢
      refine isRing_concat.2 ⟨rfl, ⟨Function.update_self .., ?_⟩, hnodup⟩
      dsimp only
      rw [Function.update_of_ne hzx.symm, Function.update_self, Function.update_of_ne hzp, path_append]
      refine ⟨some p, ?_, rfl, ?_⟩
      · refine path_update (path_update (path_update ha hpa) fun hx => hxa (by simp [hx])) fun hz => hzm (by simp [hz])
      · rw [Function.update_of_ne hzp.symm, Function.update_of_ne hxp.symm, Function.update_self]
        refine path_update (path_update (path_update hb hpb) fun hx => hxb (by simp [hx])) fun hz => hzm (by simp [hz])

theorem pruneWithPrev_isRing {a b : List α} {prev : Option α} (h : IsRing s (a ++ x :: b))
    (hprev : MayPrecede (a ++ x :: b) a prev) :
    ∃ s', pruneWithPrev s x prev = some s' ∧ IsRing s' (a ++ b) ∧ s'.next x = none := by
  obtain ⟨hxa, hxb, hab⟩ := h.split
  rcases a.eq_nil_or_concat' with rfl | ⟨a, p, rfl⟩
  · -- the first one, behind the last one
    have hor : prev.or s.hdr = s.hdr := by
      rcases hprev with rfl | ⟨-, rfl⟩
      · rfl
      · rw [h.hdr, Option.or_self]
    unfold pruneWithPrev
    rw [hor]
    rcases b.eq_nil_or_concat' with rfl | ⟨b, z, rfl⟩
    · rw [show s.hdr = some x from h.hdr]
      refine ⟨_, rfl, isRing_empty (if_pos rfl), Function.update_self ..⟩
    · rw [List.nil_append, ← List.cons_append] at h
      obtain ⟨hhdr, hm, -⟩ := isRing_concat.1 h
      have hzx : z ≠ x := fun heq => hxb (by simp [heq])
      have hzb : z ∉ b := (@notMem_of_nodup α b [] z hab).1
      rw [hhdr]
      refine ⟨_, rfl, ?_, Function.update_self ..⟩
      dsimp only
      rw [if_neg hzx, if_neg (by simpa using hzx)]
      refine isRing_concat.2 ⟨rfl, ?_, hab⟩
      dsimp only
      rw [Function.update_of_ne hzx, Function.update_self]
      exact path_update (path_update hm.2 hzb) fun hx => hxb (by simp [hx])
  · obtain rfl : prev = some p := by
      rcases hprev with hprev | ⟨hnil, -⟩
      · rwa [List.getLast?_concat] at hprev
      · exact absurd hnil (by simp)
    have hxp : p ≠ x := fun heq => hxa (by simp [heq])
    have hpa : p ∉ a := (notMem_of_nodup (List.nodup_append.1 hab).1).1
    refine ⟨_, rfl, ?_, Function.update_self ..⟩
    dsimp only
    rw [if_neg hxp]
    rcases b.eq_nil_or_concat' with rfl | ⟨b, z, rfl⟩
    · obtain ⟨hhdr, hm, -⟩ := isRing_concat.1 h
      obtain ⟨r, ha, rfl, hp⟩ := path_append.1 hm
      rw [if_pos hhdr]
      rw [List.append_nil] at hab ⊢
      refine isRing_concat.2 ⟨rfl, ?_, hab⟩
      dsimp only
      rw [Function.update_of_ne hxp, Function.update_self]
      exact path_update (path_update ha hpa) fun hx => hxa (by simp [hx])
    · have hlist : a ++ [p] ++ x :: (b ++ [z]) = (a ++ p :: x :: b) ++ [z] := by simp
      rw [hlist] at h
      obtain ⟨hhdr, hm, hz⟩ := isRing_concat.1 h
      obtain ⟨r, ha, rfl, hp, hb⟩ := path_append.1 hm
      have hzm : z ∉ a ++ p :: x :: b := fun hmem => (List.nodup_append.1 hz).2.2 z hmem z (by simp) rfl
      have hzp : z ≠ p := fun heq => hzm (by simp [heq])
      have hzx : z ≠ x := fun heq => hzm (by simp [heq])
      have hpb : p ∉ b := fun hp => (notMem_of_nodup (List.nodup_append.1 hz).1).2 (List.mem_cons_of_mem x hp)
      rw [if_neg (by rw [hhdr]; simpa using hzx)]
      rw [show a ++ [p] ++ (b ++ [z]) = (a ++ p :: b) ++ [z] by simp] at hab ⊢
      refine isRing_concat.2 ⟨hhdr, ?_, hab⟩
      dsimp only
      rw [Function.update_of_ne hzx, Function.update_of_ne hzp, path_append]
      refine ⟨some p, path_update (path_update ha hpa) fun hx => hxa (by simp [hx]), rfl, ?_⟩
      rw [Function.update_of_ne hxp, Function.update_self]
      exact path_update (path_update hb hpb) fun hx => hxb (by simp [hx])

/-- The loop goes on through elements that are not the one that is looked for. -/
theorem predLoop_path {next : α → Option α} {rhdr p : α} {q : Option α} (fuel : ℕ)
    (h : Path next (next p) l q) (hx : x ∉ l) (hrhdr : rhdr ∉ l) :
    predLoop next rhdr x (l.length + fuel) p = predLoop next rhdr x fuel (l.getLast?.getD p) := by
  induction l generalizing p with
  | nil => rw [List.length_nil, zero_add, List.getLast?_nil, Option.getD_none]
  | cons a l ih =>
      obtain ⟨hp, h⟩ := h
      rw [List.mem_cons, not_or] at hx hrhdr
      rw [List.length_cons, Nat.add_right_comm, predLoop, hp, Option.bind_some, if_neg hx.1, if_neg (Ne.symm hrhdr.1),
        ih h hx.2 hrhdr.2]
      cases l with
      | nil => rfl
      | cons b l => rw [List.getLast?_cons_cons]; rfl

/-- The element before one of the ring; for the first one it is the last. -/
theorem pred_of_mem {a b : List α} (h : IsRing s (a ++ x :: b)) {fuel : ℕ} (hfuel : (a ++ x :: b).length ≤ fuel) :
    pred fuel s x = some (a.getLast?.or (a ++ x :: b).getLast?) := by
  obtain ⟨hxa, hxb, hab⟩ := h.split
  obtain ⟨z, hz⟩ : ∃ z, s.hdr = some z := by
    rw [h.hdr]
    exact Option.isSome_iff_exists.1 (by simp)
  have hza : z ∉ a := by
    have hmem : z ∈ x :: b := by
      have := h.hdr.symm.trans hz
      rw [List.getLast?_append_of_ne_nil _ (List.cons_ne_nil x b)] at this
      exact List.mem_of_getLast? this
    exact fun hmem' => (List.nodup_append.1 h.nodup).2.2 z hmem' z hmem rfl
  obtain ⟨r, ha, rfl, -⟩ := path_append.1 (h.circular z hz)
  have hlast : s.next (a.getLast?.getD z) = some x := by
    rcases a.eq_nil_or_concat' with rfl | ⟨a, p, rfl⟩
    · exact ha
    · obtain ⟨r, -, -, hp⟩ := path_append.1 ha
      rw [List.getLast?_concat]
      exact hp
  obtain ⟨k, rfl⟩ : ∃ k, fuel = a.length + (k + 1) := ⟨fuel - a.length - 1, by
    rw [List.length_append, List.length_cons] at hfuel
    omega⟩
  unfold pred
  rw [hz]
  dsimp only
  rw [predLoop_path _ ha hxa hza, predLoop, hlast, Option.bind_some, if_pos rfl, ← h.hdr, hz]
  cases a.getLast? <;> rfl

theorem pred_of_notMem (h : IsRing s l) (hx : x ∉ l) {fuel : ℕ} (hfuel : l.length ≤ fuel) :
    pred fuel s x = some none := by
  unfold pred
  rcases l.eq_nil_or_concat' with rfl | ⟨m, z, rfl⟩
  · rw [isRing_nil h]
  · obtain ⟨hhdr, hm, -⟩ := isRing_concat.1 h
    obtain ⟨hxz, hxm, hzm⟩ := h.mem_apart hx
    have hlast : s.next (m.getLast?.getD z) = some z := by
      rcases m.eq_nil_or_concat' with rfl | ⟨m, p, rfl⟩
      · exact hm
      · obtain ⟨r, -, -, hp⟩ := path_append.1 hm
        rw [List.getLast?_concat]
        exact hp
    obtain ⟨k, rfl⟩ : ∃ k, fuel = m.length + (k + 1) := ⟨fuel - m.length - 1, by
      rw [List.length_append, List.length_singleton] at hfuel
      omega⟩
    rw [hhdr]
    dsimp only
    rw [predLoop_path _ hm hxm hzm, predLoop, hlast, Option.bind_some, if_neg hxz, if_pos rfl]

theorem prune_isRing {a b : List α} (h : IsRing s (a ++ x :: b)) {fuel : ℕ} (hfuel : (a ++ x :: b).length ≤ fuel) :
    ∃ s', prune fuel s x = some s' ∧ IsRing s' (a ++ b) ∧ s'.next x = none := by
  unfold prune
  rw [pred_of_mem h hfuel, Option.bind_some]
  refine pruneWithPrev_isRing h ?_
  rcases a.eq_nil_or_concat' with rfl | ⟨a, p, rfl⟩
  · exact .inr ⟨rfl, rfl⟩
  · rw [List.getLast?_concat]
    exact .inl List.getLast?_concat.symm

theorem pop_isRing {b : List α} (h : IsRing s (x :: b)) : ∃ s', pop s = some (some x, s') ∧ IsRing s' b := by
  unfold pop
  rcases b.eq_nil_or_concat' with rfl | ⟨b, z, rfl⟩
  · obtain ⟨hhdr, hm, -⟩ := (@isRing_concat α s [] x).1 h
    rw [hhdr]
    dsimp only
    rw [show s.next x = some x from hm]
    refine ⟨_, by rw [Option.map_some, if_pos rfl], isRing_empty rfl⟩
  · rw [← List.cons_append] at h
    obtain ⟨hhdr, hm, hnodup⟩ := isRing_concat.1 h
    have hxb := List.nodup_cons.1 hnodup
    have hxz : x ≠ z := fun heq => hxb.1 (by simp [heq])
    have hzb : z ∉ b := (notMem_of_nodup hxb.2).1
    rw [hhdr]
    dsimp only
    rw [hm.1, Option.map_some, if_neg hxz]
    refine ⟨_, rfl, isRing_concat.2 ⟨rfl, ?_, hxb.2⟩⟩
    dsimp only
    rw [Function.update_self]
    exact path_update hm.2 hzb

/-- The operations on rings are those on sequences. -/
theorem ring_operations (s : Store α) (l : List α) (h : IsRing s l) :
    (∀ x, x ∉ l → IsRing (append s x) (l ++ [x]) ∧ IsRing (push s x) (x :: l) ∧ IsRing (insert s x none) (x :: l) ∧
      (∀ a i b, l = a ++ i :: b → IsRing (insert s x (some i)) (a ++ i :: x :: b)) ∧
      ∀ fuel, l.length ≤ fuel → pred fuel s x = some none) ∧
    (∀ a x b, l = a ++ x :: b →
      (∀ prev, MayPrecede l a prev → (∃ s', promote s x prev = some s' ∧ IsRing s' (x :: (a ++ b))) ∧
        ∃ s', pruneWithPrev s x prev = some s' ∧ IsRing s' (a ++ b) ∧ s'.next x = none) ∧
      ∀ fuel, l.length ≤ fuel → pred fuel s x = some (a.getLast?.or l.getLast?) ∧
        ∃ s', prune fuel s x = some s' ∧ IsRing s' (a ++ b) ∧ s'.next x = none) ∧
    (l = [] → pop s = some (none, s)) ∧ ∀ x b, l = x :: b → ∃ s', pop s = some (some x, s') ∧ IsRing s' b := by
  refine ⟨fun x hx => ?_, ?_, ?_, ?_⟩
  · refine ⟨append_isRing h hx, push_isRing h hx, insert_none_isRing h hx, ?_, fun fuel => pred_of_notMem h hx⟩
    rintro a i b rfl
    exact insert_some_isRing h hx
  · rintro a x b rfl
    refine ⟨fun prev hprev => ⟨promote_isRing h hprev, pruneWithPrev_isRing h hprev⟩, fun fuel hfuel => ?_⟩
    exact ⟨pred_of_mem h hfuel, prune_isRing h hfuel⟩
  · rintro rfl
    unfold pop
    rw [isRing_nil h]
  · rintro x b rfl
    exact pop_isRing h

/-- A ring of three elements. -/
theorem ring_operations_three : IsRing (append (append (append ⟨none, fun _ => none⟩ 1) 2) 3) [1, 2, 3] :=
  ((ring_operations _ _ ((ring_operations _ _ ((ring_operations ⟨none, fun _ => none⟩ ([] : List ℕ)
    (isRing_empty rfl)).1 1 (by decide)).1).1 2 (by decide)).1).1 3 (by decide)).1

end OpenWatcom.Wlink.Ring
