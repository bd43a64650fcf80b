import Mathlib.Tactic

/-! # Hash tables

The chained hash tables of the linker, for any elements, hash function and comparison.

* `HTable.Placed`: every element is in the chain of its hash;
* `HTable.Placed.find`, `HTable.Placed.find_none`: what a lookup says then;
* `rehash_placed`, `mem_rehash`: elements that were changed in place are put where they belong, and none is lost. -/

namespace OpenWatcom.Wlink

variable {α : Type*}

/-- `DataHashFunc`: `unsigned long` has `long` bits, and the size is a power of two. -/
def dataHashFunc (long : ℕ) (data : List ℤ) (size : ℕ) : ℕ :=
  (data.foldl (fun key c => (key + c) * 101 % 2 ^ long) 0).toNat &&& (size - 1)

theorem dataHashFunc_lt (long : ℕ) (data : List ℤ) {size : ℕ} (h : 0 < size) : dataHashFunc long data size < size := by
  have : dataHashFunc long data size ≤ size - 1 := Nat.and_le_right
  omega

/-- The chains of a table. -/
structure HTable (α : Type*) where
  size : ℕ
  tbl : ℕ → List α

namespace HTable

/-- `CreateHTable`. -/
def create (size : ℕ) : HTable α := ⟨size, fun _ => []⟩

/-- `AddHTableElem`: nothing is added where an equal element is found. -/
def addElem (hash : α → ℕ) (cmp : α → α → Bool) (table : HTable α) (elem : α) : HTable α :=
  if (table.tbl (hash elem)).any (cmp elem) then table
  else { table with tbl := Function.update table.tbl (hash elem) (elem :: table.tbl (hash elem)) }

/-- `FindHTableElem`. -/
def findElem (hash : α → ℕ) (cmp : α → α → Bool) (table : HTable α) (elem : α) : Option α :=
  (table.tbl (hash elem)).find? (cmp elem)

/-- `WalkHTable`, with an action that changes the elements in place. -/
def walk (action : α → α) (table : HTable α) : HTable α := { table with tbl := fun i => (table.tbl i).map action }

/-- `WalkHTableCookie`, with an action that changes the cookie only. -/
def walkCookie {β : Type*} (action : β → α → β) (table : HTable α) (cookie : β) : β :=
  (List.range table.size).foldl (fun cookie i => (table.tbl i).foldl action cookie) cookie

/-- `RehashHTable` at one chain, of which the elements of `kept` stay where they are. -/
def rehashChain (hash : α → ℕ) (i : ℕ) : List α → List α → (ℕ → List α) → ℕ → List α
  | kept, [], tbl => Function.update tbl i kept
  | kept, elem :: rest, tbl =>
    if i ≠ hash elem then
      rehashChain hash i kept rest (Function.update tbl (hash elem) (elem :: tbl (hash elem)))
    else rehashChain hash i (kept ++ [elem]) rest tbl

/-- `RehashHTable`. -/
def rehash (hash : α → ℕ) (table : HTable α) : HTable α :=
  { table with tbl := (List.range table.size).foldl (fun tbl i => rehashChain hash i [] (tbl i) tbl) table.tbl }

instance : Membership α (HTable α) where
  mem table elem := ∃ i < table.size, elem ∈ table.tbl i

theorem mem_def {table : HTable α} {elem : α} : elem ∈ table ↔ ∃ i < table.size, elem ∈ table.tbl i := Iff.rfl

/-- Every element is in the chain of its hash. -/
def Placed (hash : α → ℕ) (table : HTable α) : Prop := ∀ i < table.size, ∀ elem ∈ table.tbl i, hash elem = i

variable {hash : α → ℕ} {cmp : α → α → Bool} {table : HTable α} {x elem : α}

@[simp] theorem not_mem_create {size : ℕ} : elem ∉ (create size : HTable α) := by simp [mem_def, create]

theorem create_placed (hash : α → ℕ) (size : ℕ) : (create size).Placed hash := by simp [Placed, create]

@[simp] theorem addElem_size : (table.addElem hash cmp x).size = table.size := by
  unfold addElem
  split <;> rfl

theorem addElem_placed (h : table.Placed hash) : (table.addElem hash cmp x).Placed hash := by
  unfold addElem
  split
  · exact h
  · intro i hi elem helem
    simp only [Function.update_apply] at helem
    split at helem
    · obtain rfl | helem := List.mem_cons.mp helem
      · exact (‹i = hash _›).symm
      · subst i
        exact h _ hi elem helem
    · exact h i hi elem helem

theorem mem_addElem (hx : hash x < table.size) (hnew : ∀ e ∈ table, hash e = hash x → ¬ cmp x e)
    (h : table.Placed hash) : elem ∈ table.addElem hash cmp x ↔ elem = x ∨ elem ∈ table := by
  have hany : ¬ (table.tbl (hash x)).any (cmp x) := by
    simp only [List.any_eq_true, not_exists, not_and]
    exact fun e he => hnew e ⟨_, hx, he⟩ (h _ hx e he)
  rw [addElem, if_neg hany]
  constructor
  · rintro ⟨i, hi, helem⟩
    simp only [Function.update_apply] at helem
    split at helem
    · obtain rfl | helem := List.mem_cons.mp helem
      · exact .inl rfl
      · exact .inr ⟨hash x, hx, helem⟩
    · exact .inr ⟨i, hi, helem⟩
  · rintro (rfl | ⟨i, hi, helem⟩)
    · exact ⟨hash elem, hx, by simp⟩
    · refine ⟨i, hi, ?_⟩
      simp only [Function.update_apply]
      split
      · subst i
        exact List.mem_cons_of_mem x helem
      · exact helem

theorem mem_of_findElem (hx : hash x < table.size) (h : table.findElem hash cmp x = some elem) :
    elem ∈ table ∧ cmp x elem :=
  ⟨⟨hash x, hx, List.mem_of_find?_eq_some h⟩, List.find?_some h⟩

theorem Placed.find_none (hp : table.Placed hash) (h : table.findElem hash cmp x = none) :
    ∀ e ∈ table, hash e = hash x → ¬ cmp x e := by
  rintro e ⟨i, hi, he⟩ hex
  obtain rfl : i = hash x := (hp i hi e he).symm.trans hex
  exact List.find?_eq_none.mp h e he

@[simp] theorem mem_walk {action : α → α} : elem ∈ table.walk action ↔ ∃ e ∈ table, action e = elem := by
  constructor
  · rintro ⟨i, hi, helem⟩
    obtain ⟨e, he, rfl⟩ := List.mem_map.mp helem
    exact ⟨e, ⟨i, hi, he⟩, rfl⟩
  · rintro ⟨e, ⟨i, hi, he⟩, rfl⟩
    exact ⟨i, hi, List.mem_map_of_mem he⟩

/-- A chain keeps the elements that belong to it, and the others come to stand in their own chains. -/
theorem rehashChain_spec (hash : α → ℕ) (i : ℕ) (kept rest : List α) (tbl : ℕ → List α) :
    (∀ e, e ∈ rehashChain hash i kept rest tbl i ↔ e ∈ kept ∨ e ∈ rest ∧ hash e = i) ∧
      ∀ j ≠ i, ∀ e, e ∈ rehashChain hash i kept rest tbl j ↔ e ∈ tbl j ∨ e ∈ rest ∧ hash e = j := by
  induction rest generalizing kept tbl with
  | nil => simp +contextual [rehashChain]
  | cons a rest ih =>
      rw [rehashChain]
      split
      · rename_i hne
        obtain ⟨h1, h2⟩ := ih kept (Function.update tbl (hash a) (a :: tbl (hash a)))
        refine ⟨fun e => ?_, fun j hj e => ?_⟩
        · rw [h1]
          grind
        · rw [h2 j hj, Function.update_apply]
          grind
      · rename_i heq
        obtain ⟨h1, h2⟩ := ih (kept ++ [a]) tbl
        refine ⟨fun e => ?_, fun j hj e => ?_⟩
        · rw [h1]
          grind
        · rw [h2 j hj]
          grind

/-- The chains that have been gone through hold only what belongs to them. -/
theorem rehash_fold (hash : α → ℕ) (tbl : ℕ → List α) {size : ℕ} (hs : ∀ e, hash e < size) (n : ℕ) (hn : n ≤ size) :
    (∀ j < n, ∀ e ∈ (List.range n).foldl (fun tbl i => rehashChain hash i [] (tbl i) tbl) tbl j, hash e = j) ∧
      ∀ e, (∃ j < size, e ∈ (List.range n).foldl (fun tbl i => rehashChain hash i [] (tbl i) tbl) tbl j) ↔
        ∃ j < size, e ∈ tbl j := by
  induction n with
  | zero => simp
  | succ n ih =>
      obtain ⟨hdone, hmem⟩ := ih (by omega)
      rw [List.range_succ, List.foldl_append]
      simp only [List.foldl_cons, List.foldl_nil]
      generalize (List.range n).foldl (fun tbl i => rehashChain hash i [] (tbl i) tbl) tbl = t at hdone hmem
      obtain ⟨h1, h2⟩ := rehashChain_spec hash n [] (t n) t
      refine ⟨fun j hj e he => ?_, fun e => (Iff.trans ?_ (hmem e))⟩
      · obtain rfl | hjn := eq_or_ne j n
        · exact ((h1 e).mp he).elim (fun h => nomatch h) And.right
        · obtain he | he := (h2 j hjn e).mp he
          · exact hdone j (by omega) e he
          · exact he.2
      · constructor
        · rintro ⟨j, hj, he⟩
          obtain rfl | hjn := eq_or_ne j n
          · exact ⟨j, hj, ((h1 e).mp he).elim (fun h => nomatch h) And.left⟩
          · obtain he | he := (h2 j hjn e).mp he
            · exact ⟨j, hj, he⟩
            · exact ⟨n, by omega, he.1⟩
        · rintro ⟨j, hj, he⟩
          obtain rfl | hjn := eq_or_ne j n
          · obtain hej | hej := eq_or_ne (hash e) j
            · exact ⟨j, hj, (h1 e).mpr (.inr ⟨he, hej⟩)⟩
            · exact ⟨hash e, hs e, (h2 _ hej e).mpr (.inr ⟨he, rfl⟩)⟩
          · exact ⟨j, hj, (h2 j hjn e).mpr (.inl he)⟩

theorem rehash_placed (hs : ∀ e, hash e < table.size) : (table.rehash hash).Placed hash :=
  fun j hj => (rehash_fold hash table.tbl hs table.size le_rfl).1 j hj

theorem mem_rehash (hs : ∀ e, hash e < table.size) : elem ∈ table.rehash hash ↔ elem ∈ table :=
  (rehash_fold hash table.tbl hs table.size le_rfl).2 elem

end HTable

end OpenWatcom.Wlink
